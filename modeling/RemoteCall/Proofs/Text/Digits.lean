import RemoteCall.Text.Digits
import RemoteCall.Text.Quoted

/-!
# Numbers as digits

A natural number is read back from its digits, as a whole text of digits and as the digits at the
front of a text. Only zero begins with the digit zero.
-/

namespace RemoteCall.Text

variable {base n : Nat} {rest : List Char}

/-- A digit of at most sixteen is read back. -/
theorem hexDigit?_digitChar {d : Nat} (hd : d < 16) : hexDigit? (Nat.digitChar d) = some d := by
  have h : ∀ d < 16, hexDigit? (Nat.digitChar d) = some d := by decide
  exact h d hd

/-- A text of the digits of a number spells that number. -/
theorem number?_toDigits {digit? : Char → Option Nat} (hbase : 1 < base)
    (hdigit : ∀ {d : Nat}, d < base → digit? (Nat.digitChar d) = some d) (n : Nat) :
    number? base digit? (Nat.toDigits base n) = some n := by
  have hne : (Nat.toDigits base n).isEmpty = false := by simp [Nat.toDigits_ne_nil]
  rw [number?, hne, if_neg Bool.false_ne_true]
  induction n using Nat.base_induction base hbase with
  | single d hd =>
    rw [Nat.toDigits_of_lt_base hd, List.foldlM_cons, hdigit hd]
    simp
  | digit m d hd hm ih =>
    have hne : (Nat.toDigits base m).isEmpty = false := by simp [Nat.toDigits_ne_nil]
    rw [← Nat.toDigits_append_toDigits hbase hm hd, Nat.toDigits_of_lt_base hd, List.foldlM_append,
      ih hne, Option.bind_eq_bind, Option.bind_some, List.foldlM_cons, hdigit hd, Nat.mul_comm]
    rfl

/-- The decimal digits of a number, as numbers. -/
def digits (n : Nat) : List Nat := (Nat.toDigits 10 n).map fun c => c.toNat - '0'.toNat

/-- A number has at least one digit. -/
theorem digits_ne_nil (n : Nat) : digits n ≠ [] := by
  simp [digits, Nat.toDigits_ne_nil]

/-- A number is read back from its digits. -/
theorem ofDigits_digits (n : Nat) : ofDigits (digits n) = n := by
  have hfold := Nat.ofDigitChars_toDigits (b := 10) (n := n) (by decide) (by decide)
  rw [Nat.ofDigitChars_eq_foldl] at hfold
  rw [ofDigits, digits, List.foldl_map]
  simpa only [Nat.mul_comm] using hfold

/-- A number below ten is its own digit. -/
theorem digits_of_lt {d : Nat} (hd : d < 10) : digits d = [d] := by
  rw [digits, Nat.toDigits_of_lt_base hd, List.map_singleton]
  exact congrArg ([·]) (Nat.toNat_digitChar_sub_48_of_lt_ten hd)

/-- Only zero begins with a zero. -/
theorem head?_digits (hn : 0 < n) : (digits n).head? ≠ some 0 := by
  induction n using Nat.base_induction 10 (by decide) with
  | single d hd =>
    rw [digits_of_lt hd]
    exact fun h => Nat.ne_of_gt hn (Option.some.inj h)
  | digit m d hd hm ih =>
    have happend : digits (10 * m + d) = digits m ++ digits d := by
      rw [digits, ← Nat.toDigits_append_toDigits (by decide) hm hd, List.map_append]
      rfl
    obtain ⟨first, more, hcons⟩ := List.exists_cons_of_ne_nil (digits_ne_nil m)
    have hfirst := ih hm
    rw [hcons] at hfirst
    rwa [happend, hcons]

/-- Only a single digit begins with zero. -/
theorem length_digits_of_head? (h : (digits n).head? = some 0) : (digits n).length = 1 := by
  rcases Nat.eq_zero_or_pos n with rfl | hn
  · rfl
  · exact absurd h (head?_digits hn)

/-- The digits of a number are read from the front of a text that does not go on with a digit. -/
theorem leadingDigits_toDigits_append (hrest : ∀ c ∈ rest.head?, c.isDigit = false) :
    leadingDigits (Nat.toDigits 10 n ++ rest) = (digits n, rest) := by
  have hall : ∀ c ∈ Nat.toDigits 10 n, c.isDigit = true := fun c hc =>
    Nat.isDigit_of_mem_toDigits (by decide) (by decide) hc
  have hstop : rest.takeWhile Char.isDigit = [] ∧ rest.dropWhile Char.isDigit = rest := by
    cases rest with
    | nil => exact ⟨rfl, rfl⟩
    | cons c rest =>
      have hc := hrest c rfl
      exact ⟨List.takeWhile_cons_of_neg (by simp [hc]), List.dropWhile_cons_of_neg (by simp [hc])⟩
  rw [leadingDigits, List.takeWhile_append_of_pos hall, List.dropWhile_append_of_pos hall, hstop.1,
    hstop.2, List.append_nil, digits]

end RemoteCall.Text
