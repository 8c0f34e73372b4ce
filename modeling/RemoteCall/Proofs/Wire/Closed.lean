import RemoteCall.Wire.Decode

/-!
# What all readers of values have in common

The decoder is put together from fixed numbers of bytes, ends and refusals, and from the one place
where a byte turns out to be no tag. A property that these have, and that readers in a row have when
each of them has it, is a property of the whole decoder.
-/

namespace RemoteCall.Reader

/-- The property is kept by everything that the decoder is put together from. -/
structure Closed (P : {α : Type} → Reader α → Prop) : Prop where
  result : ∀ {α : Type} (a : α), P (pure a)
  ending : ∀ {α : Type}, P (throw .eof : Reader α)
  refusal : ∀ {α : Type} (v : Violation), P (refuse v : Reader α)
  bytes : ∀ n : Nat, P (take n)
  seq : ∀ {α β : Type} {x : Reader α} {k : α → Reader β}, P x → (∀ a, P (k a)) → P (x >>= k)
  /-- The byte that was read last may be refused as no tag. -/
  tagged : ∀ {β : Type} {k : UInt8 → Reader β},
    (∀ b, P (k b) ∨ Tag.ofByte? b = none ∧ k b = throw (.unknownTag b)) → P (byte >>= k)

namespace Closed

variable {P : {α : Type} → Reader α → Prop} (hP : Closed P) (f : Format)

include hP

/-- Reading a byte has the property. -/
theorem byte : P byte := hP.seq (hP.bytes 1) fun _ => hP.result _

/-- Reading a length has the property. -/
theorem word : P (word f) := hP.seq (hP.bytes 4) fun _ => hP.result _

/-- Reading a number has the property. -/
theorem number : P (number f) := hP.seq (hP.bytes _) fun _ => hP.result _

/-- Reading a string has the property. -/
theorem string : P (string f) := by
  refine hP.seq (hP.word f) fun size => ?_
  dsimp only
  split
  · exact hP.seq (hP.refusal _) fun _ => hP.bytes _
  · exact hP.bytes _

/-- Reading a reference has the property. -/
theorem reference : P (reference f) := by
  refine hP.seq (hP.string f) fun bytes => ?_
  split
  · exact hP.result _
  · exact hP.refusal _

/-- Reading a blob has the property. -/
theorem blob : P (blob f) := by
  have hrest : P (do
      let bytes ← Reader.string f
      let last ← Reader.byte
      if last ≠ Tag.blobEnd.toByte then refuse (.blobUnterminated last)
      return bytes) := by
    refine hP.seq (hP.string f) fun bytes => hP.seq hP.byte fun last => ?_
    split
    · exact hP.seq (hP.refusal _) fun _ => hP.result _
    · exact hP.result _
  refine hP.seq hP.byte fun first => ?_
  split
  · exact hP.seq (hP.refusal _) fun _ => hrest
  · exact hrest

mutual

/-- Reading an item has the property, whatever its budget and its depth. -/
theorem item (budget depth : Nat) : P (item f budget depth) := by
  cases budget with
  | zero =>
    rw [Reader.item]
    exact hP.ending
  | succ budget =>
    rw [Reader.item]
    refine hP.tagged fun b => ?_
    cases htag : Tag.ofByte? b with
    | none => exact .inr ⟨rfl, rfl⟩
    | some tag =>
      left
      cases tag with
      | nil => exact hP.result _
      | number => exact hP.seq (hP.number f) fun _ => hP.result _
      | boolean => exact hP.seq hP.byte fun _ => hP.result _
      | string => exact hP.seq (hP.string f) fun _ => hP.result _
      | table =>
        have hpairs : P (do return Item.value (.table (← Reader.pairs f budget (depth + 1)))) :=
          hP.seq (pairs budget (depth + 1)) fun _ => hP.result _
        dsimp only
        split
        · exact hP.seq (hP.refusal _) fun _ => hpairs
        · exact hpairs
      | tableEnd => exact hP.result _
      | blob => exact hP.seq (hP.blob f) fun _ => hP.result _
      | blobEnd => exact hP.result _
      | remote => exact hP.seq (hP.reference f) fun _ => hP.result _

/-- Reading pairs has the property, whatever their budget and their depth. -/
theorem pairs (budget depth : Nat) : P (pairs f budget depth) := by
  cases budget with
  | zero =>
    rw [Reader.pairs]
    exact hP.ending
  | succ budget =>
    rw [Reader.pairs]
    refine hP.seq (item budget depth) fun key => ?_
    split
    · exact hP.result _
    · exact hP.refusal _
    · refine hP.seq (item budget depth) fun value => ?_
      split
      · exact hP.refusal _
      · exact hP.seq (pairs budget depth) fun _ => hP.result _

end

end Closed

end RemoteCall.Reader
