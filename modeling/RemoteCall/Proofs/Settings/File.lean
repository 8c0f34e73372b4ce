import RemoteCall.Proofs.Settings.Field
import RemoteCall.Proofs.Settings.Json
import RemoteCall.Proofs.Text.Utf8

/-!
# Settings survive their files

A file has every field, so that no default is filled in when it is loaded. With any lawful codec,
what is loaded is what was saved, except that time limits are cut to whole milliseconds of eight
bytes; saving it again writes the same text. All settings that a program can get hold of are in
range, and only those can be had.
-/

namespace RemoteCall

namespace Settings

/-- A document is loaded from the bytes of its text. -/
theorem Codec.tree?_bytes {c : Codec} {d : Document} {t : c.Tree} (h : c.Spells d t) :
    c.tree? (Text.bytes (c.print d)) = some t := by
  rw [tree?, Text.decode?_bytes, Option.bind_some, h]

/-- Cutting a time limit changes nothing about what is written for it. -/
theorem timeoutDocument_kept (t : Option Duration) :
    timeoutDocument (t.map Duration.kept) = timeoutDocument t := by
  cases t with
  | none => rfl
  | some d => exact congrArg (fun m : Nat => Document.present (.integer m)) d.millis_kept

/-- A time limit is kept as it is exactly when there is none or it is whole. -/
theorem map_kept_eq_self_iff {t : Option Duration} (h : ∀ d ∈ t, d.IsTime) :
    t.map Duration.kept = t ↔ ∀ d ∈ t, d.IsWhole := by
  cases t with
  | none => exact ⟨fun _ => nofun, fun _ => rfl⟩
  | some d =>
    rw [Option.map_some, Option.some.injEq, Duration.kept_eq_self_iff (h d rfl)]
    exact ⟨forall_mem_some, fun hall => hall d rfl⟩

end Settings

/-! ### Client settings -/

namespace ClientSettings

open Settings

variable {c : Codec} {s : ClientSettings}

/-- Every setting is in the range of its type. -/
structure InRange (s : ClientSettings) : Prop where
  communicationTimeout : ∀ d ∈ s.communicationTimeout, d.IsTime
  waitTimeout : ∀ d ∈ s.waitTimeout, d.IsTime
  maxNameLength : s.maxNameLength < 18446744073709551616
  native : ∀ f ∈ s.native, f.isSupported = true

/-- The settings that can be had: the default ones, those of any file, and those with one setting
given anew. A number format is given only after it has been checked. -/
inductive Reached (c : Codec) : ClientSettings → Prop where
  | default : Reached c {}
  | loaded {bytes : List UInt8} {s : ClientSettings} (h : load c bytes = .ok s) : Reached c s
  | communicationTimeout {s : ClientSettings} {t : Option Duration} (h : Reached c s)
      (ht : ∀ d ∈ t, d.IsTime) : Reached c { s with communicationTimeout := t }
  | waitTimeout {s : ClientSettings} {t : Option Duration} (h : Reached c s)
      (ht : ∀ d ∈ t, d.IsTime) : Reached c { s with waitTimeout := t }
  | maxNameLength {s : ClientSettings} {n : Nat} (h : Reached c s) (hn : n < 18446744073709551616) :
      Reached c { s with maxNameLength := n }
  | native {s : ClientSettings} {f : Format} (h : Reached c s) (hf : f.isSupported = true) :
      Reached c { s with native := some f }

/-- What a file keeps of the settings. -/
def kept (s : ClientSettings) : ClientSettings :=
  { s with
    communicationTimeout := s.communicationTimeout.map Duration.kept
    waitTimeout := s.waitTimeout.map Duration.kept }

/-- The default settings are in range. -/
theorem inRange_default : InRange {} where
  communicationTimeout := forall_mem_some ⟨by decide, by decide⟩
  waitTimeout := nofun
  maxNameLength := by decide
  native := nofun

/-- What a tree spells is in range, also where fields were missing. -/
theorem inRange_of_ofTree? (hc : c.Lawful) {t : c.Tree} (h : ofTree? c t = some s) :
    s.InRange := by
  obtain ⟨found, -, h⟩ := Option.bind_eq_some_iff.mp h
  split at h
  · simp only [Option.bind_eq_bind, Option.bind_eq_some_iff, Option.pure_def,
      Option.some.injEq] at h
    obtain ⟨communication, hcommunication, wait, hwait, longest, hlongest, native, hnative,
      rfl⟩ := h
    have hdefault := inRange_default
    have hlongest := hc.of_field? (hc.ensures_natural 64) hdefault.maxNameLength hlongest
    exact ⟨hc.of_field? hc.ensures_timeout hdefault.communicationTimeout hcommunication,
      hc.of_field? hc.ensures_timeout hdefault.waitTimeout hwait, hlongest,
      hc.of_field? (hc.ensures_optional Codec.ensures_format) hdefault.native hnative⟩
  · exact nomatch h

/-- What a file keeps is in range, whatever its bytes. -/
theorem inRange_of_load (hc : c.Lawful) {bytes : List UInt8} (h : load c bytes = .ok s) :
    s.InRange := by
  unfold load at h
  split at h
  · rename_i found hfound
    cases h
    obtain ⟨t, -, hread⟩ := Option.bind_eq_some_iff.mp hfound
    exact inRange_of_ofTree? hc hread
  · exact nomatch h

/-- The settings that can be had are those in range. -/
theorem reached_iff_inRange (hc : c.Lawful) : s.Reached c ↔ s.InRange := by
  constructor
  · intro h
    induction h with
    | default => exact inRange_default
    | loaded h => exact inRange_of_load hc h
    | communicationTimeout _ ht ih => exact { ih with communicationTimeout := ht }
    | waitTimeout _ ht ih => exact { ih with waitTimeout := ht }
    | maxNameLength _ hn ih => exact { ih with maxNameLength := hn }
    | native _ hf ih => exact { ih with native := forall_mem_some hf }
  · intro h
    obtain ⟨communication, wait, longest, native⟩ := s
    have hlimits : Reached c ⟨communication, wait, longest, none⟩ :=
      ((Reached.default.communicationTimeout h.communicationTimeout).waitTimeout
        h.waitTimeout).maxNameLength h.maxNameLength
    cases native with
    | none => exact hlimits
    | some f => exact hlimits.native (h.native f rfl)

/-- The document of settings is a record with a record at most. -/
theorem depth_toDocument_le (s : ClientSettings) : s.toDocument.depth ≤ 127 := by
  have hnative := depth_nativeDocument_le s.native
  simp only [toDocument, Document.depth, fieldsDepth, depth_timeoutDocument]
  omega

/-- The tree that is written for settings spells what is kept of them. -/
theorem keeps_toDocument (hc : c.Lawful) (h : s.InRange) :
    c.Keeps (ofTree? c) s.toDocument s.kept := by
  obtain ⟨communication, hcommunication, hreadCommunication⟩ := hc.timeout s.communicationTimeout
  obtain ⟨wait, hwait, hreadWait⟩ := hc.timeout s.waitTimeout
  obtain ⟨longest, hlongest, hreadLongest⟩ := hc.natural (Nat.le_refl 64) h.maxNameLength
  obtain ⟨native, hnative, hreadNative⟩ := hc.native h.native
  have hnodup : fieldNames.Nodup := by decide
  obtain ⟨t, ht, hfields⟩ := hc.record s.depth_toDocument_le hnodup
    (.cons hcommunication (.cons hwait (.cons hlongest (.cons hnative .nil))))
  change c.fields? fieldNames t =
    some [some communication, some wait, some longest, some native] at hfields
  refine ⟨t, ht, ?_⟩
  rw [ofTree?, hfields]
  simp only [hc.found, hreadCommunication, hreadWait, hreadLongest, hreadNative,
    Option.bind_eq_bind, Option.bind_some]
  rfl

/-- Settings are loaded from their file, up to what is cut. -/
theorem load_fileText (hc : c.Lawful) (h : s.InRange) :
    load c (Text.bytes (fileText c s)) = .ok s.kept := by
  obtain ⟨t, ht, hread⟩ := keeps_toDocument hc h
  rw [load, load?, fileText, Codec.tree?_bytes ht, Option.bind_some, hread]

/-- What is kept is written as the settings are. -/
theorem fileText_kept (c : Codec) (s : ClientSettings) : fileText c s.kept = fileText c s := by
  rw [fileText, toDocument, kept]
  dsimp only
  rw [timeoutDocument_kept, timeoutDocument_kept, fileText, toDocument]

/-- Settings are kept as they are exactly when their time limits are whole. -/
theorem kept_eq_self_iff (h : s.InRange) :
    s.kept = s ↔ (∀ d ∈ s.communicationTimeout, d.IsWhole) ∧ ∀ d ∈ s.waitTimeout, d.IsWhole := by
  rw [← map_kept_eq_self_iff h.communicationTimeout, ← map_kept_eq_self_iff h.waitTimeout]
  obtain ⟨communication, wait, longest, native⟩ := s
  rw [kept, ClientSettings.mk.injEq]
  simp only [and_true]

end ClientSettings

/-! ### Server settings -/

namespace ServerSettings

open Settings

variable {c : Codec} {s : ServerSettings}

/-- Every setting is in the range of its type. -/
structure InRange (s : ServerSettings) : Prop where
  address : s.address.IsWhole
  port : s.port < 65536
  backlog : -2147483648 ≤ s.backlog ∧ s.backlog ≤ 2147483647
  communicationTimeout : ∀ d ∈ s.communicationTimeout, d.IsTime
  native : ∀ f ∈ s.native, f.isSupported = true

/-- The settings that can be had: the default ones, those of any file, and those with one setting
given anew. A number format is given only after it has been checked. -/
inductive Reached (c : Codec) : ServerSettings → Prop where
  | default : Reached c {}
  | loaded {bytes : List UInt8} {s : ServerSettings} (h : load c bytes = .ok s) : Reached c s
  | address {s : ServerSettings} {a : Address} (h : Reached c s) (ha : a.IsWhole) :
      Reached c { s with address := a }
  | port {s : ServerSettings} {n : Nat} (h : Reached c s) (hn : n < 65536) :
      Reached c { s with port := n }
  | backlog {s : ServerSettings} {i : Int} (h : Reached c s)
      (hi : -2147483648 ≤ i ∧ i ≤ 2147483647) : Reached c { s with backlog := i }
  | communicationTimeout {s : ServerSettings} {t : Option Duration} (h : Reached c s)
      (ht : ∀ d ∈ t, d.IsTime) : Reached c { s with communicationTimeout := t }
  | native {s : ServerSettings} {f : Format} (h : Reached c s) (hf : f.isSupported = true) :
      Reached c { s with native := some f }

/-- What a file keeps of the settings. -/
def kept (s : ServerSettings) : ServerSettings :=
  { s with communicationTimeout := s.communicationTimeout.map Duration.kept }

/-- The default settings are in range. -/
theorem inRange_default : InRange {} where
  address := trivial
  port := by decide
  backlog := by decide
  communicationTimeout := forall_mem_some ⟨by decide, by decide⟩
  native := nofun

/-- What a tree spells is in range, also where fields were missing. -/
theorem inRange_of_ofTree? (hc : c.Lawful) {t : c.Tree} (h : ofTree? c t = some s) :
    s.InRange := by
  obtain ⟨found, -, h⟩ := Option.bind_eq_some_iff.mp h
  split at h
  · simp only [Option.bind_eq_bind, Option.bind_eq_some_iff, Option.pure_def,
      Option.some.injEq] at h
    obtain ⟨address, haddress, port, hport, backlog, hbacklog, communication, hcommunication,
      native, hnative, rfl⟩ := h
    have hdefault := inRange_default
    have hport := hc.of_field? (hc.ensures_natural 16) hdefault.port hport
    have hbacklog := hc.of_field? (hc.ensures_integer _ _) hdefault.backlog hbacklog
    exact ⟨hc.of_field? Codec.ensures_address hdefault.address haddress, hport, hbacklog,
      hc.of_field? hc.ensures_timeout hdefault.communicationTimeout hcommunication,
      hc.of_field? (hc.ensures_optional Codec.ensures_format) hdefault.native hnative⟩
  · exact nomatch h

/-- What a file keeps is in range, whatever its bytes. -/
theorem inRange_of_load (hc : c.Lawful) {bytes : List UInt8} (h : load c bytes = .ok s) :
    s.InRange := by
  unfold load at h
  split at h
  · rename_i found hfound
    cases h
    obtain ⟨t, -, hread⟩ := Option.bind_eq_some_iff.mp hfound
    exact inRange_of_ofTree? hc hread
  · exact nomatch h

/-- The settings that can be had are those in range. -/
theorem reached_iff_inRange (hc : c.Lawful) : s.Reached c ↔ s.InRange := by
  constructor
  · intro h
    induction h with
    | default => exact inRange_default
    | loaded h => exact inRange_of_load hc h
    | address _ ha ih => exact { ih with address := ha }
    | port _ hn ih => exact { ih with port := hn }
    | backlog _ hi ih => exact { ih with backlog := hi }
    | communicationTimeout _ ht ih => exact { ih with communicationTimeout := ht }
    | native _ hf ih => exact { ih with native := forall_mem_some hf }
  · intro h
    obtain ⟨address, port, backlog, communication, native⟩ := s
    have hplace : Reached c ⟨address, port, backlog, communication, none⟩ :=
      (((Reached.default.address h.address).port h.port).backlog h.backlog).communicationTimeout
        h.communicationTimeout
    cases native with
    | none => exact hplace
    | some f => exact hplace.native (h.native f rfl)

/-- The document of settings is a record with a record at most. -/
theorem depth_toDocument_le (s : ServerSettings) : s.toDocument.depth ≤ 127 := by
  have hnative := depth_nativeDocument_le s.native
  simp only [toDocument, Document.depth, fieldsDepth, depth_timeoutDocument]
  omega

/-- The tree that is written for settings spells what is kept of them. -/
theorem keeps_toDocument (hc : c.Lawful) (h : s.InRange) :
    c.Keeps (ofTree? c) s.toDocument s.kept := by
  obtain ⟨address, haddress, hreadAddress⟩ := hc.address h.address
  obtain ⟨port, hport, hreadPort⟩ := hc.natural (show 16 ≤ 64 by decide) h.port
  obtain ⟨backlog, hbacklog, hreadBacklog⟩ :=
    hc.integer (show -9223372036854775808 ≤ (-2147483648 : Int) by decide)
      (show (2147483647 : Int) < 18446744073709551616 by decide) h.backlog.1 h.backlog.2
  obtain ⟨communication, hcommunication, hreadCommunication⟩ := hc.timeout s.communicationTimeout
  obtain ⟨native, hnative, hreadNative⟩ := hc.native h.native
  have hnodup : fieldNames.Nodup := by decide
  obtain ⟨t, ht, hfields⟩ := hc.record s.depth_toDocument_le hnodup
    (.cons haddress (.cons hport (.cons hbacklog (.cons hcommunication (.cons hnative .nil)))))
  change c.fields? fieldNames t =
    some [some address, some port, some backlog, some communication, some native] at hfields
  refine ⟨t, ht, ?_⟩
  rw [ofTree?, hfields]
  simp only [hc.found, hreadAddress, hreadPort, hreadBacklog, hreadCommunication, hreadNative,
    Option.bind_eq_bind, Option.bind_some]
  rfl

/-- Settings are loaded from their file, up to what is cut. -/
theorem load_fileText (hc : c.Lawful) (h : s.InRange) :
    load c (Text.bytes (fileText c s)) = .ok s.kept := by
  obtain ⟨t, ht, hread⟩ := keeps_toDocument hc h
  rw [load, load?, fileText, Codec.tree?_bytes ht, Option.bind_some, hread]

/-- What is kept is written as the settings are. -/
theorem fileText_kept (c : Codec) (s : ServerSettings) : fileText c s.kept = fileText c s := by
  rw [fileText, toDocument, kept]
  dsimp only
  rw [timeoutDocument_kept, fileText, toDocument]

/-- Settings are kept as they are exactly when their time limits are whole. -/
theorem kept_eq_self_iff (h : s.InRange) :
    s.kept = s ↔ ∀ d ∈ s.communicationTimeout, d.IsWhole := by
  rw [← map_kept_eq_self_iff h.communicationTimeout]
  obtain ⟨address, port, backlog, communication, native⟩ := s
  rw [kept, ServerSettings.mk.injEq]
  simp only [true_and, and_true]

end ServerSettings

/-! ### Saving and loading -/

namespace Settings

variable {c : Codec}

/-- A format that this side can use passes its check, and passes it again when it is read back. -/
theorem native_checks (hc : c.Lawful) {native : Option Format}
    (h : ∀ f ∈ native, f.isSupported = true) :
    ∀ f ∈ native, f.check = .ok f ∧ c.Keeps c.format? (formatDocument f) f := by
  intro f hf
  refine ⟨?_, hc.format (h f hf)⟩
  rw [Format.check, if_pos (h f hf)]

/-- All settings that can be had survive their file. They are loaded from it as they were, but for
time limits that are no whole number of milliseconds of eight bytes, which are cut; their number
format passes its check again; and saving what was loaded writes the same file. A limit that is zero
or missing is not changed. -/
theorem load_after_save (hc : c.Lawful) :
    (∀ s : ClientSettings, s.Reached c →
      ClientSettings.load c (Text.bytes (ClientSettings.fileText c s)) = .ok s.kept ∧
      (s.kept = s ↔
        (∀ d ∈ s.communicationTimeout, d.IsWhole) ∧ ∀ d ∈ s.waitTimeout, d.IsWhole) ∧
      (∀ f ∈ s.native, f.check = .ok f ∧ c.Keeps c.format? (formatDocument f) f) ∧
      ClientSettings.fileText c s.kept = ClientSettings.fileText c s) ∧
    (∀ s : ServerSettings, s.Reached c →
      ServerSettings.load c (Text.bytes (ServerSettings.fileText c s)) = .ok s.kept ∧
      (s.kept = s ↔ ∀ d ∈ s.communicationTimeout, d.IsWhole) ∧
      (∀ f ∈ s.native, f.check = .ok f ∧ c.Keeps c.format? (formatDocument f) f) ∧
      ServerSettings.fileText c s.kept = ServerSettings.fileText c s) ∧
    ∀ t : Option Duration, (∀ d ∈ t, d.isZero = true) → t.map Duration.kept = t := by
  refine ⟨?_, ?_, ?_⟩
  · intro s hs
    have hrange := (ClientSettings.reached_iff_inRange hc).mp hs
    exact ⟨ClientSettings.load_fileText hc hrange, ClientSettings.kept_eq_self_iff hrange,
      native_checks hc hrange.native, ClientSettings.fileText_kept c s⟩
  · intro s hs
    have hrange := (ServerSettings.reached_iff_inRange hc).mp hs
    exact ⟨ServerSettings.load_fileText hc hrange, ServerSettings.kept_eq_self_iff hrange,
      native_checks hc hrange.native, ServerSettings.fileText_kept c s⟩
  · intro t ht
    have hzero : ∀ d ∈ t, d.IsTime ∧ d.IsWhole := by
      intro d hd
      obtain ⟨seconds, nanos⟩ := d
      obtain ⟨rfl, rfl⟩ : seconds = 0 ∧ nanos = 0 := by simpa [Duration.isZero] using ht _ hd
      exact ⟨⟨by decide, by decide⟩, by decide, by decide⟩
    exact (map_kept_eq_self_iff fun d hd => (hzero d hd).1).mpr fun d hd => (hzero d hd).2

/-- As indented JSON half a millisecond is lost; an address of version six and a negative backlog
are not. -/
theorem load_after_save_cut :
    Codec.json.Lawful ∧
    ClientSettings.load .json (Text.bytes
      (ClientSettings.fileText .json { waitTimeout := some ⟨1, 1500000⟩ })) =
        .ok { waitTimeout := some ⟨1, 1000000⟩ } ∧
    ServerSettings.load .json (Text.bytes (ServerSettings.fileText .json
      { address := .v6 [0x2001, 0xdb8, 0, 0, 0, 0, 0, 1], backlog := -1,
        native := some ⟨false, 2, .integer⟩ })) =
        .ok { address := .v6 [0x2001, 0xdb8, 0, 0, 0, 0, 0, 1], backlog := -1,
              native := some ⟨false, 2, .integer⟩ } ∧
    (some (Duration.ofSeconds 0)).map Duration.kept = some (.ofSeconds 0) := by
  have hwait : ∀ d ∈ some (Duration.mk 1 1500000), d.IsTime :=
    forall_mem_some ⟨by decide, by decide⟩
  have haddress : (Address.v6 [0x2001, 0xdb8, 0, 0, 0, 0, 0, 1]).IsWhole := rfl
  have hzero : ∀ d ∈ some (Duration.ofSeconds 0), d.isZero = true := forall_mem_some rfl
  obtain ⟨hclient, hserver, htime⟩ := load_after_save Codec.json_lawful
  refine ⟨Codec.json_lawful, ?_, ?_, htime _ hzero⟩
  · exact (hclient _ (.waitTimeout .default hwait)).1
  · exact (hserver _ (.native (.backlog (.address .default haddress) (by decide)) rfl)).1

end Settings

end RemoteCall
