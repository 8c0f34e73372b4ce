import RemoteCall.Proofs.Computation
import RemoteCall.Proofs.Line.Supply

/-!
# What readers make of bytes

A reading is what a reader makes of given bytes: it is done with them, or it stops before their end
and leaves some of them. A reader follows a reading when, wherever the bytes stand on the line and
however they are cut, it comes to that outcome and what it leaves is next. Readings compose as
readers do, so a format is described once, by its readings, and every reader of it is checked
against that.
-/

namespace RemoteCall

/-- What becomes of bytes that are read. -/
inductive Reading (α : Type) where
  /-- All of them are used, for this. -/
  | done (a : α)
  /-- The reader fails, and these are left. -/
  | stop (e : Error) (left : List UInt8)

namespace Reading

variable {α β : Type}

def result : Reading α → Except Error α
  | .done a => .ok a
  | .stop e _ => .error e

def left : Reading α → List UInt8
  | .done _ => []
  | .stop _ left => left

/-- A reading of further bytes after this one. -/
def andThen (r : Reading α) (more : List UInt8) (k : α → Reading β) : Reading β :=
  match r with
  | .done a => k a
  | .stop e left => .stop e (left ++ more)

@[simp] theorem left_stop (e : Error) (left : List UInt8) :
    (stop e left : Reading α).left = left := rfl

@[simp] theorem done_andThen (a : α) (more : List UInt8) (k : α → Reading β) :
    (done a).andThen more k = k a := rfl

@[simp] theorem stop_andThen (e : Error) (left more : List UInt8) (k : α → Reading β) :
    (stop e left).andThen more k = .stop e (left ++ more) := rfl

/-- Readings in a row are done when both are. -/
theorem andThen_eq_done {r : Reading α} {more : List UInt8} {k : α → Reading β} {b : β} :
    r.andThen more k = .done b ↔ ∃ a, r = .done a ∧ k a = .done b := by
  cases r with
  | done a => simp
  | stop e left => simp

/-- Readings in a row may be grouped either way. -/
theorem andThen_assoc {γ : Type} (r : Reading α) (first second : List UInt8) (k : α → Reading β)
    (g : β → Reading γ) :
    (r.andThen first k).andThen second g =
      r.andThen (first ++ second) fun a => (k a).andThen second g := by
  cases r with
  | done a => rfl
  | stop e left => simp only [stop_andThen, List.append_assoc]

end Reading

namespace Reader

variable {α β : Type} {x : Reader α} {k : α → Reader β} {bytes more : List UInt8} {r : Reading α}

/-- The reader comes to this outcome of these bytes, whatever follows them. -/
def Follows (x : Reader α) (bytes : List UInt8) (r : Reading α) : Prop :=
  ∀ (input : Inbound) (rest : List UInt8) (after : List Arrival),
    input.Brings (bytes ++ rest) after →
      ∃ later, x input = (r.result, later) ∧ later.Brings (r.left ++ rest) after

/-- Giving a value takes no bytes. -/
theorem follows_pure (a : α) : Follows (pure a) [] (.done a) :=
  fun input _ _ h => ⟨input, rfl, h⟩

/-- A reader that only fails leaves everything. -/
theorem follows_throw (e : Error) (bytes : List UInt8) :
    Follows (throw e : Reader α) bytes (.stop e bytes) :=
  fun input _ _ h => ⟨input, rfl, h⟩

/-- Readers in a row follow readings in a row. -/
theorem Follows.bind {g : α → Reading β} (hx : Follows x bytes r)
    (hk : ∀ a, r = .done a → Follows (k a) more (g a)) :
    Follows (x >>= k) (bytes ++ more) (r.andThen more g) := by
  intro input rest after hin
  rw [List.append_assoc] at hin
  obtain ⟨middle, hrun, hmiddle⟩ := hx input (more ++ rest) after hin
  cases r with
  | done a =>
    obtain ⟨later, hlater, hbrings⟩ := hk a rfl middle rest after hmiddle
    exact ⟨later, (bind_of_ok hrun).trans hlater, hbrings⟩
  | stop e left =>
    refine ⟨middle, bind_of_error hrun, ?_⟩
    rw [Reading.stop_andThen, Reading.left_stop, List.append_assoc]
    exact hmiddle

/-- What is made of the result alone takes no further bytes. -/
theorem Follows.bind_pure {g : α → Reading β} (hx : Follows x bytes r)
    (hk : ∀ a, r = .done a → Follows (k a) [] (g a)) :
    Follows (x >>= k) bytes (r.andThen [] g) := by
  have h := hx.bind hk
  rwa [List.append_nil] at h

/-- After a first part that is done the rest is read. -/
theorem Follows.bind_done {a : α} {r' : Reading β} (hx : Follows x bytes (.done a))
    (hk : Follows (k a) more r') : Follows (x >>= k) (bytes ++ more) r' :=
  hx.bind (g := fun _ => r') fun _ ha => by
    cases ha
    exact hk

/-- After a first part that stops nothing further is read. -/
theorem Follows.bind_stop_append {e : Error} {left : List UInt8}
    (hx : Follows x bytes (.stop e left)) :
    Follows (x >>= k) (bytes ++ more) (.stop e (left ++ more) : Reading β) :=
  hx.bind (g := fun _ => .stop e []) fun _ ha => nomatch ha

/-- Nothing is read behind a failure. -/
theorem Follows.bind_stop {e : Error} {left : List UInt8} (hx : Follows x bytes (.stop e left)) :
    Follows (x >>= k) bytes (.stop e left) := by
  have h := @bind_stop_append _ _ _ k _ [] _ _ hx
  rwa [List.append_nil, List.append_nil] at h

/-- As many bytes as there are can be read. -/
theorem follows_take (bytes : List UInt8) : Follows (take bytes.length) bytes (.done bytes) :=
  fun _ _ _ h => Inbound.fill_of_brings h

/-- A byte is read as itself. -/
theorem follows_byte (b : UInt8) : Follows byte [b] (.done b) := by
  have h := (follows_take [b]).bind_pure (k := fun bs => pure (bs.headD 0))
    (g := fun bs => .done (bs.headD 0)) fun bs _ => follows_pure _
  exact h

/-- The first byte, if there is one, is found without an error. -/
theorem follows_next (b : UInt8) : Follows byte? [b] (.done (some b)) :=
  fun _ _ _ h => Inbound.next_of_brings h

/-- With only these bytes before it the reader fails as the line does, and the bytes are lost. -/
def Breaks (x : Reader α) (part : List UInt8) : Prop :=
  ∀ (input : Inbound) (after later : List Arrival) (e : Error), input.Brings part after →
    Inbound.Meets after e later → x input = (.error e, ⟨[], later⟩)

/-- The reader needs all of these bytes: it breaks off with any strict beginning of them. -/
def Needs (x : Reader α) (bytes : List UInt8) : Prop :=
  ∀ part missing : List UInt8, part ++ missing = bytes → missing ≠ [] → Breaks x part

/-- A sequence breaks off where its first part does. -/
theorem Breaks.bind (h : Breaks x bytes) : Breaks (x >>= k) bytes :=
  fun input after later e hin hmeets => bind_of_error (h input after later e hin hmeets)

/-- A sequence breaks off where its second part does. -/
theorem Follows.bind_breaks {a : α} (hx : Follows x bytes (.done a)) (hk : Breaks (k a) more) :
    Breaks (x >>= k) (bytes ++ more) := by
  intro input after later e hin hmeets
  obtain ⟨middle, hrun, hmiddle⟩ := hx input more after hin
  exact (bind_of_ok hrun).trans (hk middle after later e hmiddle hmeets)

/-- A beginning of two byte strings in a row ends inside the first one, or behind it. -/
theorem append_eq_append_cases {part missing first second : List UInt8}
    (h : part ++ missing = first ++ second) :
    (∃ left, left ≠ [] ∧ part ++ left = first) ∨
      ∃ begun, part = first ++ begun ∧ begun ++ missing = second := by
  rcases List.append_eq_append_iff.mp h with ⟨left, hfirst, hrest⟩ | ⟨begun, hpart, hsecond⟩
  · by_cases hleft : left = []
    · subst hleft
      exact .inr ⟨[], by simpa using hfirst.symm, by simpa using hrest⟩
    · exact .inl ⟨left, hleft, hfirst.symm⟩
  · exact .inr ⟨begun, hpart, hsecond.symm⟩

/-- Readers in a row need the bytes of both. -/
theorem Needs.bind {a : α} (hneeds : Needs x bytes) (hx : Follows x bytes (.done a))
    (hk : Needs (k a) more) : Needs (x >>= k) (bytes ++ more) := by
  intro part missing h hmissing
  rcases append_eq_append_cases h with ⟨left, hleft, hfirst⟩ | ⟨begun, rfl, hsecond⟩
  · exact (hneeds part left hfirst hleft).bind
  · exact hx.bind_breaks (hk begun missing hsecond hmissing)

/-- What is made of the result alone needs nothing more. -/
theorem Needs.bind_pure (hneeds : Needs x bytes) : Needs (x >>= k) bytes :=
  fun part missing h hmissing => (hneeds part missing h hmissing).bind

/-- Too few bytes for a fixed number of them. -/
theorem breaks_take {n : Nat} (h : bytes.length < n) : Breaks (take n) bytes :=
  fun _ _ _ _ hin hmeets => Inbound.fill_of_meets hin h hmeets

/-- So many bytes are needed, all of them. -/
theorem needs_take (bytes : List UInt8) : Needs (take bytes.length) bytes := by
  intro part missing h hmissing
  have hpos := List.length_pos_iff.mpr hmissing
  refine breaks_take ?_
  rw [← h, List.length_append]
  omega

/-- A byte is needed for reading a byte. -/
theorem needs_byte (b : UInt8) : Needs byte [b] := (needs_take [b]).bind_pure

/-- Without a byte reading one breaks off. -/
theorem breaks_byte : Breaks byte [] := needs_byte 0 [] [0] rfl (List.cons_ne_nil _ _)

end Reader

end RemoteCall
