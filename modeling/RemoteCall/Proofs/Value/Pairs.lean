import RemoteCall.Proofs.Text.Utf8
import RemoteCall.Value.Basic

/-!
# The last pair with a key

Either no key is chosen, or the pairs split at the last one whose key is. All operations on pairs
are read off this split: the lookup gives the value that stands there, and replacing or removing
touch this pair only. Names choose keys by their bytes and keys choose equal keys; a key that is a
byte string equals itself alone, so both ways of choosing agree on names.
-/

namespace RemoteCall

namespace Pairs

variable {α β : Type} {chosen : α → Bool} {pairs before after : List (α × β)} {key : α} {value : β}

/-- The pairs split at the last one whose key is chosen. -/
structure LastAt (chosen : α → Bool) (pairs before : List (α × β)) (key : α) (value : β)
    (after : List (α × β)) : Prop where
  split : pairs = before ++ (key, value) :: after
  isChosen : chosen key = true
  later : ∀ pair ∈ after, chosen pair.1 = false

/-- A pair in front does not change which one is last. -/
theorem LastAt.cons (h : LastAt chosen pairs before key value after) (pair : α × β) :
    LastAt chosen (pair :: pairs) (pair :: before) key value after :=
  ⟨by rw [h.split, List.cons_append], h.isChosen, h.later⟩

/-- Either no key is chosen or there is a last one that is. -/
theorem none_or_lastAt (chosen : α → Bool) (pairs : List (α × β)) :
    (∀ pair ∈ pairs, chosen pair.1 = false) ∨
      ∃ before key value after, LastAt chosen pairs before key value after := by
  induction pairs with
  | nil => exact .inl (by simp)
  | cons pair pairs ih =>
    obtain hnone | ⟨before, key, value, after, hlast⟩ := ih
    · cases hpair : chosen pair.1 with
      | false => exact .inl (by simpa [hpair] using hnone)
      | true => exact .inr ⟨[], pair.1, pair.2, pairs, rfl, hpair, hnone⟩
    · exact .inr ⟨pair :: before, key, value, after, hlast.cons pair⟩

/-- The last choice among pairs in a row is that of the second part, or else of the first. -/
theorem findLast?_append (chosen : α → Bool) (front back : List (α × β)) :
    findLast? chosen (front ++ back) = (findLast? chosen back).or (findLast? chosen front) := by
  induction front with
  | nil => simp [findLast?]
  | cons pair front ih => rw [List.cons_append, findLast?, findLast?, ih, Option.or_assoc]

/-- Where no key is chosen none is found. -/
theorem findLast?_of_none (h : ∀ pair ∈ pairs, chosen pair.1 = false) :
    findLast? chosen pairs = none := by
  induction pairs with
  | nil => rfl
  | cons pair pairs ih =>
    rw [findLast?, ih fun pair hpair => h pair (List.mem_cons_of_mem _ hpair),
      h pair List.mem_cons_self]
    rfl

/-- Where no key is chosen none is replaced. -/
theorem replaceLast?_of_none (h : ∀ pair ∈ pairs, chosen pair.1 = false) (value : β) :
    replaceLast? chosen value pairs = none := by
  induction pairs with
  | nil => rfl
  | cons pair pairs ih =>
    rw [replaceLast?, ih fun pair hpair => h pair (List.mem_cons_of_mem _ hpair),
      h pair List.mem_cons_self]
    rfl

/-- Where no key is chosen none is erased. -/
theorem eraseLast?_of_none (h : ∀ pair ∈ pairs, chosen pair.1 = false) :
    eraseLast? chosen pairs = none := by
  induction pairs with
  | nil => rfl
  | cons pair pairs ih =>
    rw [eraseLast?, ih fun pair hpair => h pair (List.mem_cons_of_mem _ hpair),
      h pair List.mem_cons_self]
    rfl

namespace LastAt

variable (h : LastAt chosen pairs before key value after)

include h

/-- The lookup gives the value that stands there. -/
theorem findLast? : findLast? chosen pairs = some value := by
  rw [h.split, findLast?_append, Pairs.findLast?, findLast?_of_none h.later, h.isChosen]
  rfl

/-- Replacing changes the value that stands there and keeps its key. -/
theorem replaceLast? (new : β) :
    replaceLast? chosen new pairs = some (before ++ (key, new) :: after) := by
  rw [h.split]
  induction before generalizing pairs with
  | nil =>
    rw [List.nil_append, Pairs.replaceLast?, replaceLast?_of_none h.later, h.isChosen]
    rfl
  | cons pair before ih =>
    rw [List.cons_append, Pairs.replaceLast?, ih ⟨rfl, h.isChosen, h.later⟩]
    rfl

/-- Removing takes out the pair that stands there. -/
theorem eraseLast? : eraseLast? chosen pairs = some (before ++ after) := by
  rw [h.split]
  induction before generalizing pairs with
  | nil =>
    rw [List.nil_append, Pairs.eraseLast?, eraseLast?_of_none h.later, h.isChosen]
    rfl
  | cons pair before ih =>
    rw [List.cons_append, Pairs.eraseLast?, ih ⟨rfl, h.isChosen, h.later⟩]
    rfl

/-- A lookup that does not choose this key skips the pair. -/
theorem findLast?_skip {other : α → Bool} (hother : other key = false) :
    Pairs.findLast? other pairs = Pairs.findLast? other (before ++ after) := by
  rw [h.split, findLast?_append, findLast?_append, Pairs.findLast?, hother]
  simp

/-- With another value there, the same pair is last. -/
theorem withValue (new : β) :
    LastAt chosen (before ++ (key, new) :: after) before key new after :=
  ⟨rfl, h.isChosen, h.later⟩

end LastAt

/-- A lookup finds the value of a last chosen pair. -/
theorem lastAt_of_findLast? (h : findLast? chosen pairs = some value) :
    ∃ before key after, LastAt chosen pairs before key value after := by
  obtain hnone | ⟨before, key, found, after, hlast⟩ := none_or_lastAt chosen pairs
  · rw [findLast?_of_none hnone] at h
    cases h
  · rw [hlast.findLast?] at h
    cases h
    exact ⟨before, key, after, hlast⟩

/-- Putting a value under a name makes the name lead to it and leaves the other names alone. -/
theorem find?_insertSorted (name n : String) (value : β) (pairs : List (String × β)) :
    (insertSorted name value pairs).find? (·.1 = n) =
      if name = n then some (name, value) else pairs.find? (·.1 = n) := by
  induction pairs with
  | nil => by_cases h : name = n <;> simp [insertSorted, h]
  | cons pair pairs ih =>
    obtain ⟨first, old⟩ := pair
    rw [insertSorted]
    split
    · rename_i hfirst
      subst hfirst
      by_cases h : first = n <;> simp [h]
    · split
      · by_cases h : name = n <;> simp [h]
      · rename_i hne _
        rw [List.find?_cons, List.find?_cons, ih]
        by_cases hn : first = n
        · have hname : name ≠ n := fun h => hne (by rw [hn, h])
          simp [hn, hname]
        · simp [hn]

end Pairs

namespace Value

/-- A key that reads as text is the byte string of that text. -/
theorem text?_eq_some {key : Value} {s : String} : key.text? = some s ↔ key = ofText s := by
  constructor
  · intro h
    cases key with
    | string bs => rw [ofText, (Text.decode?_eq_some.mp h)]
    | _ => cases h
  · rintro rfl
    exact Text.decode?_bytes s

@[simp] theorem text?_ofText (s : String) : (ofText s).text? = some s :=
  text?_eq_some.mpr rfl

/-- A key has a name exactly when it is the text of it. -/
theorem isNamed_iff {name : String} {key : Value} :
    isNamed name key = true ↔ key = ofText name := by
  cases key <;> simp [isNamed, ofText]

/-- A text has its own name and no other. -/
theorem isNamed_ofText (name s : String) : isNamed name (ofText s) = decide (s = name) := by
  by_cases h : s = name
  · simp [h, isNamed_iff]
  · have hne : ¬ isNamed name (ofText s) = true := by
      intro hnamed
      injection isNamed_iff.mp hnamed with hbytes
      exact h (Text.bytes_injective hbytes)
    simpa [h] using hne

/-- A byte string equals itself alone, as either side. -/
theorem same_string {key other : Value} {bs : List UInt8} (h : key.same other = true) :
    key = .string bs ↔ other = .string bs := by
  cases key <;> cases other <;> simp_all [same]

/-- Equal keys have the same name. -/
theorem isNamed_of_same {key other : Value} (h : key.same other = true) (name : String) :
    isNamed name other = isNamed name key := by
  rw [Bool.eq_iff_iff, isNamed_iff, isNamed_iff]
  exact (same_string h).symm

/-- Among the keys that equal a name there is only the name. -/
theorem same_ofText (s : String) (key : Value) : (ofText s).same key = isNamed s key := by
  cases key with
  | string bs =>
    rw [isNamed, ofText, same, Bool.beq_comm]
  | _ => rfl

end Value

end RemoteCall
