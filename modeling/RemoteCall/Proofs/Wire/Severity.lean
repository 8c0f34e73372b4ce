import RemoteCall.Proofs.Wire.Frame

/-!
# Severity of faults

The faults of balanced bytes (a text that is none, a size or a depth over its limit) and the
refusals of the encoder are violations of the protocol, and those are not fatal: whoever meets one
goes on with the connection.
-/

namespace RemoteCall

namespace Reading

variable {α β : Type}

/-- The reading stops for nothing but a violation of the protocol. -/
def Mild (r : Reading α) : Prop := ∀ e left, r = .stop e left → ∃ v, e = .protocol v

/-- A mild reading stops for a failure that is not fatal. -/
theorem Mild.nonFatal {r : Reading α} {e : Error} {left : List UInt8} (hr : r.Mild)
    (h : r = .stop e left) : e.severity = .nonFatal := by
  obtain ⟨v, rfl⟩ := hr e left h
  rfl

/-- A reading that is done is mild. -/
theorem mild_done (a : α) : (done a).Mild := fun _ _ h => nomatch h

/-- A violation of the protocol is mild. -/
theorem mild_violation (v : Violation) (left : List UInt8) :
    (stop (.protocol v) left : Reading α).Mild := by
  intro e rest h
  cases h
  exact ⟨v, rfl⟩

/-- Mild readings in a row are mild. -/
theorem Mild.andThen {r : Reading α} {k : α → Reading β} (hr : r.Mild) (more : List UInt8)
    (hk : ∀ a, (k a).Mild) : (r.andThen more k).Mild := by
  cases r with
  | done a => exact hk a
  | stop e left =>
    intro e' rest h
    cases h
    exact hr e left rfl

end Reading

open Reading

namespace Payload

variable (p : Payload)

/-- A payload is read mildly. -/
theorem mild_reading : p.reading.Mild := by
  unfold reading
  split
  · exact mild_violation _ _
  · exact mild_done _

/-- A payload is read mildly as a path. -/
theorem mild_pathReading : p.pathReading.Mild := by
  refine p.mild_reading.andThen _ fun bs => ?_
  split
  · exact mild_done _
  · exact mild_violation _ _

/-- A payload is read mildly as a reference. -/
theorem mild_referenceReading : p.referenceReading.Mild := by
  refine p.mild_reading.andThen _ fun bs => ?_
  split
  · exact mild_done _
  · exact mild_violation _ _

end Payload

namespace Term

variable {f : Format}

mutual

/-- A term is read to its end, or up to a violation. -/
theorem mild_reading (t : Term f) (depth : Nat) : (t.reading depth).Mild := by
  cases t with
  | nil => rw [reading]; exact mild_done _
  | number bs hbs => rw [reading]; exact mild_done _
  | boolean b => rw [reading]; exact mild_done _
  | string p =>
    rw [reading]
    exact p.mild_reading.andThen _ fun bs => mild_done _
  | table ps =>
    rw [reading]
    split
    · exact mild_violation _ _
    · exact (mild_pairsReading ps (depth + 1)).andThen _ fun ps => mild_done _
  | blob p =>
    rw [reading]
    exact (p.mild_reading.andThen _ mild_done).andThen _ fun bs => mild_done _
  | remote p =>
    rw [reading]
    exact p.mild_referenceReading.andThen _ fun path => mild_done _

/-- Pairs are read to their end, or up to a violation. -/
theorem mild_pairsReading (ps : List (Term f × Term f)) (depth : Nat) :
    (pairsReading depth ps).Mild := by
  cases ps with
  | nil => rw [pairsReading]; exact mild_done _
  | cons p ps =>
    obtain ⟨k, v⟩ := p
    rw [pairsReading]
    refine (mild_reading k depth).andThen _ fun key => ?_
    refine (mild_reading v depth).andThen _ fun value => ?_
    exact (mild_pairsReading ps depth).andThen _ fun rest => mild_done _

end

/-- Terms are read mildly, one after the other. -/
theorem mild_readings (ts : List (Term f)) : (readings ts).Mild := by
  induction ts with
  | nil => exact mild_done _
  | cons t ts ih =>
    exact (t.mild_reading 0).andThen _ fun v => ih.andThen _ fun vs => mild_done _

end Term

/-- A frame is read to its end, or up to a violation. -/
theorem Frame.mild_reading {f : Format} (F : Frame f) : F.reading.Mild := by
  cases F with
  | call path args hlength =>
    exact path.mild_pathReading.andThen _ fun p =>
      (Term.mild_readings args).andThen _ fun vs => mild_done _
  | get path => exact path.mild_pathReading.andThen _ fun p => mild_done _
  | set path key value =>
    exact path.mild_pathReading.andThen _ fun p => (key.mild_reading 0).andThen _ fun k =>
      (value.mild_reading 0).andThen _ fun v => mild_done _

namespace Emission

variable {a b : Emission}

/-- The emission fails with nothing but a violation of the protocol. -/
def Mild (a : Emission) : Prop := ∀ e, a.failure = some e → ∃ v, e = .protocol v

/-- A mild emission fails with a failure that is not fatal. -/
theorem Mild.nonFatal {e : Error} (ha : a.Mild) (h : a.failure = some e) :
    e.severity = .nonFatal := by
  obtain ⟨v, rfl⟩ := ha e h
  rfl

/-- Bytes alone are mild. -/
theorem mild_ofBytes (bytes : List UInt8) : (ofBytes bytes).Mild := fun _ h => nomatch h

/-- A violation of the protocol is mild as an emission. -/
theorem mild_violation (v : Violation) : (fail (.protocol v)).Mild := by
  intro e h
  cases h
  exact ⟨v, rfl⟩

/-- Mild emissions in a row are mild. -/
theorem Mild.append (ha : a.Mild) (hb : b.Mild) : (a ++ b).Mild := by
  obtain ⟨bytes, failure⟩ := a
  cases failure with
  | some e => exact ha
  | none => exact hb

/-- A string is a mild emission. -/
theorem mild_string (f : Format) (bytes : List UInt8) : (string f bytes).Mild := by
  unfold string
  dsimp only
  split
  · exact mild_violation _
  · exact (mild_ofBytes _).append (mild_ofBytes _)

mutual

/-- A value is refused, if at all, as a violation. -/
theorem mild_value (f : Format) (depth : Nat) (v : Value) : (value f depth v).Mild := by
  cases v with
  | nil => rw [value]; exact mild_ofBytes _
  | boolean b => rw [value]; exact (mild_ofBytes _).append (mild_ofBytes _)
  | number n => rw [value]; exact (mild_ofBytes _).append (mild_ofBytes _)
  | string bytes => rw [value]; exact (mild_ofBytes _).append (mild_string f bytes)
  | table ps =>
    rw [value]
    split
    · exact mild_violation _
    · exact (mild_ofBytes _).append ((mild_entries f (depth + 1) ps).append (mild_ofBytes _))
  | blob bytes =>
    rw [value]
    exact (mild_ofBytes _).append
      ((mild_ofBytes _).append ((mild_string f bytes).append (mild_ofBytes _)))
  | remote path => rw [value]; exact (mild_ofBytes _).append (mild_string f _)

/-- Pairs are refused, if at all, as a violation. -/
theorem mild_entries (f : Format) (depth : Nat) (ps : List (Value × Value)) :
    (entries f depth ps).Mild := by
  cases ps with
  | nil => rw [entries]; exact mild_ofBytes _
  | cons p ps =>
    obtain ⟨k, v⟩ := p
    rw [entries]
    exact (mild_value f depth k).append ((mild_value f depth v).append (mild_entries f depth ps))

end

end Emission

end RemoteCall
