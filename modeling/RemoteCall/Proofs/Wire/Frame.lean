import RemoteCall.Path
import RemoteCall.Proofs.Wire.RoundTrip

/-!
# Framed requests

A frame is a request as a whole: the command byte, the path behind its length, and the terms that
the command asks for. Nothing more is required of it, so its path need not be text. A client sends
the frame of an operation, or a strict beginning of one; a server reads an operation out of a frame,
or stops at the first fault with the bytes behind it unread. No byte string that begins with a frame
begins with another one, so what has been sent is either at the end of a request or it is not.
-/

namespace RemoteCall

/-- What a request asks of the application. -/
inductive Operation where
  | call (path : Path) (args : List Value)
  | get (path : Path)
  | set (path : Path) (key value : Value)

/-- A request that is framed, whether or not it can be understood. -/
inductive Frame (f : Format) where
  | call (path : Payload) (args : List (Term f)) (length_lt : args.length < UInt32.size)
  | get (path : Payload)
  | set (path : Payload) (key value : Term f)

namespace Payload

/-- The path that a payload names. -/
def pathReading (p : Payload) : Reading Path :=
  p.reading.andThen [] fun bs =>
    match Text.decode? bs with
    | some dotted => .done (.parse dotted)
    | none => .stop (.protocol .pathNotText) []

end Payload

namespace Term

variable {f : Format}

/-- What is read of terms one after another. -/
def readings : List (Term f) → Reading (List Value)
  | [] => .done []
  | t :: ts =>
    (t.reading 0).andThen (allBytes ts) fun v => (readings ts).andThen [] fun vs => .done (v :: vs)

end Term

namespace Frame

variable {f : Format}

def command : Frame f → Command
  | .call .. => .call
  | .get _ => .get
  | .set .. => .set

/-- The bytes behind the command byte. -/
def body : Frame f → List UInt8
  | .call path args _ =>
    path.wire f ++ (f.wordBytes (UInt32.ofNat args.length) ++ Term.allBytes args)
  | .get path => path.wire f
  | .set path key value => path.wire f ++ (key.bytes ++ value.bytes)

/-- The bytes of a frame. -/
def bytes (F : Frame f) : List UInt8 := F.command.toByte :: F.body

/-- The bytes of frames one after another. -/
def allBytes (Fs : List (Frame f)) : List UInt8 := Fs.flatMap bytes

@[simp] theorem allBytes_nil : allBytes ([] : List (Frame f)) = [] := rfl

@[simp] theorem allBytes_cons (F : Frame f) (Fs : List (Frame f)) :
    allBytes (F :: Fs) = F.command.toByte :: (F.body ++ allBytes Fs) := rfl

/-- What a server that keeps blobs as they are reads behind the command byte. -/
def reading : Frame f → Reading Operation
  | .call path args _ =>
    path.pathReading.andThen (f.wordBytes (UInt32.ofNat args.length) ++ Term.allBytes args) fun p =>
      (Term.readings args).andThen [] fun vs => .done (.call p vs)
  | .get path => path.pathReading.andThen [] fun p => .done (.get p)
  | .set path key value =>
    path.pathReading.andThen (key.bytes ++ value.bytes) fun p =>
      (key.reading 0).andThen value.bytes fun k =>
        (value.reading 0).andThen [] fun v => .done (.set p k v)

/-- A frame is recognised at the beginning of a byte string. -/
theorem bytes_append_inj (F G : Frame f) {r s : List UInt8} (h : F.bytes ++ r = G.bytes ++ s) :
    F = G ∧ r = s := by
  simp only [bytes, List.cons_append, List.cons.injEq] at h
  obtain ⟨hbyte, hbody⟩ := h
  have hcommand : F.command = G.command :=
    Option.some.inj (by rw [← Command.ofByte?_toByte, hbyte, Command.ofByte?_toByte])
  cases F with
  | call p ts hts =>
    cases G with
    | call q us hus =>
      simp only [body, List.append_assoc] at hbody
      obtain ⟨rfl, hrest⟩ := Payload.wire_append_inj hbody
      obtain ⟨hcount, hterms⟩ := List.append_inj hrest (by simp)
      have hlength := congrArg UInt32.toNat (f.wordBytes_inj.mp hcount)
      rw [UInt32.toNat_ofNat', UInt32.toNat_ofNat', Nat.mod_eq_of_lt hts,
        Nat.mod_eq_of_lt hus] at hlength
      obtain ⟨rfl, hend⟩ := Term.allBytes_append_inj hlength hterms
      exact ⟨rfl, hend⟩
    | get _ => exact Command.noConfusion hcommand
    | set _ _ _ => exact Command.noConfusion hcommand
  | get p =>
    cases G with
    | get q =>
      obtain ⟨rfl, hend⟩ := Payload.wire_append_inj hbody
      exact ⟨rfl, hend⟩
    | call _ _ _ => exact Command.noConfusion hcommand
    | set _ _ _ => exact Command.noConfusion hcommand
  | set p k v =>
    cases G with
    | set q k' v' =>
      simp only [body, List.append_assoc] at hbody
      obtain ⟨rfl, hkey⟩ := Payload.wire_append_inj hbody
      obtain ⟨rfl, hvalue⟩ := k.bytes_append_inj k' hkey
      obtain ⟨rfl, hend⟩ := v.bytes_append_inj v' hvalue
      exact ⟨rfl, hend⟩
    | call _ _ _ => exact Command.noConfusion hcommand
    | get _ => exact Command.noConfusion hcommand

end Frame

namespace Emission

/-- Values one after another. -/
def values (f : Format) : List Value → Emission
  | [] => ofBytes []
  | v :: vs => v.encode f ++ values f vs

end Emission

namespace Operation

/-- The bytes that a client sends for an operation. -/
def emission (f : Format) : Operation → Emission
  | .call path args =>
    .byte Command.call.toByte ++
      (.text f path.text ++ (.word f (UInt32.ofNat args.length) ++ .values f args))
  | .get path => .byte Command.get.toByte ++ .text f path.text
  | .set path key value =>
    .byte Command.set.toByte ++ (.text f path.text ++ (key.encode f ++ value.encode f))

/-- The operation as the other side of the format sees it: the path by its dotted text, and numbers
as the format carries them. -/
def received (f : Format) : Operation → Operation
  | .call path args => .call (.parse path.text) (args.map (Value.quantise f))
  | .get path => .get (.parse path.text)
  | .set path key value => .set (.parse path.text) (key.quantise f) (value.quantise f)

/-- The count of arguments fits into its four bytes. -/
def Countable : Operation → Prop
  | .call _ args => args.length < UInt32.size
  | .get _ | .set .. => True

end Operation

namespace Frame

variable {f : Format}

open Emission

/-- A path is sent as a payload that names it, or refused before its length. -/
theorem path_begins (f : Format) (p : Path) :
    ∃ payload : Payload, (text f p.text).Begins (payload.wire f)
      (payload.pathReading = .done (.parse p.text)) := by
  obtain ⟨payload, h⟩ := string_begins f (Text.bytes p.text)
  refine ⟨payload, h.imp fun hread => ?_⟩
  rw [Payload.pathReading, hread, Reading.done_andThen, Text.decode?_bytes]

/-- Values are sent as that many terms, or as a strict beginning of them. -/
theorem values_begin (hf : f.isSupported = true) (vs : List Value) :
    ∃ ts : List (Term f), ts.length = vs.length ∧
      (values f vs).Begins (Term.allBytes ts)
        (Term.readings ts = .done (vs.map (Value.quantise f))) := by
  induction vs with
  | nil => exact ⟨[], rfl, .whole [] rfl⟩
  | cons v vs ih =>
    obtain ⟨t, ht⟩ := Term.value_begins hf 0 v
    obtain ⟨ts, hlength, hts⟩ := ih
    refine ⟨t :: ts, by simp [hlength], (ht.append hts).imp fun hread => ?_⟩
    rw [Term.readings, hread.1, Reading.done_andThen, hread.2, Reading.done_andThen]
    rfl

/-- The client sends the frame of an operation as the server will read it, or a strict beginning of
a frame. -/
theorem operation_begins (hf : f.isSupported = true) (op : Operation) (hcount : op.Countable) :
    ∃ F : Frame f, (op.emission f).Begins F.bytes (F.reading = .done (op.received f)) := by
  cases op with
  | call path args =>
    obtain ⟨p, hp⟩ := path_begins f path
    obtain ⟨ts, hlength, hts⟩ := values_begin hf args
    have hword : (word f (UInt32.ofNat args.length)).Begins
        (f.wordBytes (UInt32.ofNat ts.length)) True := by
      rw [hlength]
      exact .whole _ trivial
    refine ⟨.call p ts (by rw [hlength]; exact hcount), ?_⟩
    refine ((hp.append (hword.append hts)).cons _).imp fun hread => ?_
    obtain ⟨hpath, -, hargs⟩ := hread
    rw [reading, hpath, Reading.done_andThen, hargs, Reading.done_andThen]
    rfl
  | get path =>
    obtain ⟨p, hp⟩ := path_begins f path
    refine ⟨.get p, (hp.cons _).imp fun hread => ?_⟩
    rw [reading, hread, Reading.done_andThen]
    rfl
  | set path key value =>
    obtain ⟨p, hp⟩ := path_begins f path
    obtain ⟨k, hk⟩ := Term.value_begins hf 0 key
    obtain ⟨v, hv⟩ := Term.value_begins hf 0 value
    refine ⟨.set p k v, ((hp.append (hk.append hv)).cons _).imp fun hread => ?_⟩
    obtain ⟨hpath, hkey, hvalue⟩ := hread
    rw [reading, hpath, Reading.done_andThen, hkey, Reading.done_andThen, hvalue,
      Reading.done_andThen]
    rfl

/-- What is sent for an operation that cannot be encoded is not the end of a request: it is neither
empty nor a frame. -/
theorem not_boundary_of_failure (hf : f.isSupported = true) {op : Operation}
    (hcount : op.Countable) {e : Error} (hfailure : (op.emission f).failure = some e) :
    ¬ ((op.emission f).bytes = [] ∨ ∃ F : Frame f, F.bytes = (op.emission f).bytes) := by
  obtain ⟨F, hF⟩ := operation_begins hf op hcount
  obtain ⟨missing, hne, hwhole⟩ := hF.of_some hfailure
  rintro (hempty | ⟨G, hG⟩)
  · cases op <;> exact List.cons_ne_nil _ _ hempty
  · rw [← hG, ← List.append_nil F.bytes] at hwhole
    exact hne (G.bytes_append_inj F hwhole).2

end Frame

end RemoteCall
