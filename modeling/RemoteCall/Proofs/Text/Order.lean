import RemoteCall.Proofs.Text.Utf8

/-!
# The order of texts

Texts are ordered by their characters, and their UTF-8 bytes are in the same order: of two
characters the greater one has the greater bytes, and differs from the other within them, whatever
follows.
-/

namespace RemoteCall.Text

variable {s t : String} {c d : Char}

/-- Bytes are ordered as the numbers that they are. -/
theorem ofNat_lt_ofNat {m n : Nat} (hm : m < 256) (hn : n < 256) :
    UInt8.ofNat m < UInt8.ofNat n ↔ m < n := by
  rw [UInt8.lt_iff_toNat_lt, toNat_ofNat_of_lt hm, toNat_ofNat_of_lt hn]

/-- Bytes are equal when the numbers are. -/
theorem ofNat_eq_ofNat {m n : Nat} (hm : m < 256) (hn : n < 256) :
    UInt8.ofNat m = UInt8.ofNat n ↔ m = n := by
  rw [← UInt8.toNat_inj, toNat_ofNat_of_lt hm, toNat_ofNat_of_lt hn]

/-- The bytes of a smaller character come first, whatever follows either. -/
theorem utf8EncodeChar_append_lt (h : c < d) (xs ys : List UInt8) :
    String.utf8EncodeChar c ++ xs < String.utf8EncodeChar d ++ ys := by
  have hlt : c.val.toNat < d.val.toNat := UInt32.lt_iff_toNat_lt.mp h
  have hlast : d.val.toNat < 0x110000 := by
    rcases d.valid with hd | ⟨-, hd⟩
    · exact Nat.lt_trans hd (by decide)
    · exact hd
  generalize hv : c.val.toNat = v at hlt
  generalize hw : d.val.toNat = w at hlt hlast
  have hdigits : ∀ n < 0x110000, n / 4096 = n / 64 / 64 ∧ n / 262144 % 8 = n / 64 / 64 / 64 := by
    intro n hn
    omega
  obtain ⟨hv2, hv3⟩ := hdigits v (Nat.lt_trans hlt hlast)
  obtain ⟨hw2, hw3⟩ := hdigits w hlast
  simp only [String.utf8EncodeChar, hv, hw, hv2, hv3, hw2, hw3]
  -- The first byte tells how many there are, and the more there are the greater it is.
  repeat' split
  all_goals
    simp (disch := omega) only [List.cons_append, List.nil_append, List.cons_lt_cons_iff,
      ofNat_lt_ofNat, ofNat_eq_ofNat]
    omega

/-- Texts in order have bytes in order. -/
theorem bytes_lt_of_lt (h : s < t) : bytes s < bytes t := by
  have hchars : ∀ cs ds : List Char, cs < ds →
      cs.flatMap String.utf8EncodeChar < ds.flatMap String.utf8EncodeChar := by
    intro cs
    induction cs with
    | nil =>
      intro ds hlt
      cases ds with
      | nil => exact absurd hlt (List.lt_irrefl _)
      | cons d ds =>
        have hne : (d :: ds).flatMap String.utf8EncodeChar ≠ [] := by
          rw [List.flatMap_cons]
          exact List.append_ne_nil_of_left_ne_nil String.utf8EncodeChar_ne_nil _
        obtain ⟨b, rest, hbytes⟩ := List.exists_cons_of_ne_nil hne
        rw [hbytes]
        exact List.nil_lt_cons b rest
    | cons c cs ih =>
      intro ds hlt
      cases ds with
      | nil => exact absurd hlt (List.not_lt_nil _)
      | cons d ds =>
        rw [List.flatMap_cons, List.flatMap_cons]
        rcases List.cons_lt_cons_iff.mp hlt with hless | ⟨rfl, hrest⟩
        · exact utf8EncodeChar_append_lt hless _ _
        · exact List.append_left_lt (ih ds hrest)
  exact hchars s.toList t.toList h

/-- Texts are in the order of their bytes. -/
theorem bytes_lt_bytes : bytes s < bytes t ↔ s < t := by
  refine ⟨fun h => ?_, bytes_lt_of_lt⟩
  refine String.not_le.mp fun hle => ?_
  by_cases hlt : t < s
  · exact List.lt_asymm h (bytes_lt_of_lt hlt)
  · rw [String.le_antisymm hle (String.not_lt.mp hlt)] at h
    exact List.lt_irrefl _ h

end RemoteCall.Text
