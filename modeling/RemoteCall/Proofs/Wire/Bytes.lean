import RemoteCall.Wire.Format

/-!
# Bytes of lengths and numbers

A length is read back from its four bytes in either order. A number takes as many bytes as its
format says, provided that the width fits the kind.
-/

namespace RemoteCall

@[simp] theorem length_lowBytes (count n : Nat) : (lowBytes count n).length = count := by
  induction count generalizing n with
  | zero => rfl
  | succ count ih => simp only [lowBytes, List.length_cons, ih]

/-- The low bytes keep a number up to the power that they reach. -/
theorem ofLowBytes_lowBytes (count n : Nat) :
    ofLowBytes (lowBytes count n) = n % Nat.pow 256 count := by
  induction count generalizing n with
  | zero => exact (Nat.mod_one n).symm
  | succ count ih =>
    have hpow : Nat.pow 256 (count + 1) = 256 * Nat.pow 256 count := Nat.mul_comm _ _
    rw [hpow, Nat.mod_mul]
    simp only [lowBytes, ofLowBytes, ih, UInt8.toNat_ofNat']

/-- Bytes are worth less than the power of their number. -/
theorem ofLowBytes_lt (bytes : List UInt8) : ofLowBytes bytes < Nat.pow 256 bytes.length := by
  induction bytes with
  | nil => exact Nat.one_pos
  | cons b rest ih =>
    have hpow : Nat.pow 256 (b :: rest).length = 256 * Nat.pow 256 rest.length := Nat.mul_comm _ _
    have hb : b.toNat < 256 := b.toNat_lt
    rw [hpow, ofLowBytes]
    omega

/-- Bytes are the low bytes of the number that they make. -/
theorem lowBytes_ofLowBytes (bytes : List UInt8) :
    lowBytes bytes.length (ofLowBytes bytes) = bytes := by
  induction bytes with
  | nil => rfl
  | cons b rest ih =>
    have hb : b.toNat < 256 := b.toNat_lt
    have hquotient : (b.toNat + 256 * ofLowBytes rest) / 256 = ofLowBytes rest := by omega
    have hlow : UInt8.ofNat (b.toNat + 256 * ofLowBytes rest) = b := by
      apply UInt8.toNat_inj.mp
      rw [UInt8.toNat_ofNat']
      omega
    rw [ofLowBytes, List.length_cons, lowBytes, hquotient, ih, hlow]

namespace Format

variable (f : Format)

@[simp] theorem length_ordered (bytes : List UInt8) : (f.ordered bytes).length = bytes.length := by
  unfold ordered
  split
  · rfl
  · exact List.length_reverse

/-- Turning bytes round twice gives them back. -/
@[simp] theorem ordered_ordered (bytes : List UInt8) : f.ordered (f.ordered bytes) = bytes := by
  unfold ordered
  split
  · rfl
  · exact List.reverse_reverse bytes

@[simp] theorem length_wordBytes (v : UInt32) : (f.wordBytes v).length = 4 := by
  simp only [wordBytes, length_ordered, length_lowBytes]

/-- A length is read back from its bytes. -/
@[simp] theorem wordOf_wordBytes (v : UInt32) : f.wordOf (f.wordBytes v) = v := by
  have hmod : v.toNat % Nat.pow 256 4 = v.toNat := Nat.mod_eq_of_lt v.toNat_lt
  rw [wordOf, wordBytes, ordered_ordered, ofLowBytes_lowBytes, hmod]
  exact UInt32.ofNat_toNat

/-- Four bytes are the bytes of the length that is read from them. -/
theorem wordBytes_wordOf {bytes : List UInt8} (h : bytes.length = 4) :
    f.wordBytes (f.wordOf bytes) = bytes := by
  have hlength : (f.ordered bytes).length = 4 := (f.length_ordered bytes).trans h
  have hlt : ofLowBytes (f.ordered bytes) < UInt32.size := by
    have := ofLowBytes_lt (f.ordered bytes)
    rwa [hlength] at this
  have hword : (f.wordOf bytes).toNat = ofLowBytes (f.ordered bytes) := by
    rw [wordOf, UInt32.toNat_ofNat']
    exact Nat.mod_eq_of_lt hlt
  have hlow := lowBytes_ofLowBytes (f.ordered bytes)
  rw [hlength] at hlow
  rw [wordBytes, hword, hlow, ordered_ordered]

/-- The bytes of lengths of different values differ. -/
theorem wordBytes_inj {v w : UInt32} : f.wordBytes v = f.wordBytes w ↔ v = w := by
  constructor
  · intro h
    rw [← f.wordOf_wordBytes v, h, wordOf_wordBytes]
  · exact congrArg _

variable {f}

/-- A number takes as many bytes as the format is wide. -/
theorem length_numberBytes (hf : f.isSupported = true) (x : Binary64) :
    (f.numberBytes x).length = f.width.toNat := by
  obtain ⟨order, width, kind⟩ := f
  simp only [numberBytes, length_ordered, lowNumberBytes]
  cases kind with
  | integer =>
    simp only [isSupported, supports, Bool.or_eq_true, decide_eq_true_eq] at hf
    rcases hf with ((rfl | rfl) | rfl) | rfl <;> simp [integerBytes]
  | float =>
    simp only [isSupported, supports, Bool.or_eq_true, decide_eq_true_eq] at hf
    rcases hf with rfl | rfl <;> simp

end Format

end RemoteCall
