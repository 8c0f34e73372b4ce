import RemoteCall.Namespace.Stock
import RemoteCall.Proofs.Remote.Greeting
import RemoteCall.Proofs.Remote.Outcome

/-!
# Remote operations

An operation on a joined handle ends as the same operation on the application behind the server
would, at the path that the dotted text names and with numbers as the format carries them. Nothing
of it depends on the application, provided that blobs are kept; a namespace is one that keeps them,
and the only one of its failures to read is that nothing lives at the path.
-/

namespace RemoteCall

variable {σ α : Type}

/-- A namespace fails to read only where nothing lives. -/
theorem Namespace.isNotFound_of_resolve {φ : Type} {ns : Namespace φ} {p : Path} {e : HostError}
    (h : ns.resolve p = .error e) : e.isNotFound = true := by
  unfold resolve at h
  split at h
  · exact nomatch h
  · cases h
    rfl

namespace Joined

section

open Exchange Serving

variable {f : Format} {h : Host σ} {j : Joined σ} {rounds : Nat} {p : Path} {host : σ}

section

variable {client : Handle} (hnames : p.check client.settings.maxNameLength = .ok ())

include hnames

/-- An operation whose names are short enough is its exchange. -/
theorem performs_performAt [Inhabited α] {x : ClientSettings → Session α} :
    Performs client (Handle.performAt p x) (x client.settings) :=
  fun _ => Handle.performAt_of_check hnames

/-- A call of fewer arguments than a length can say is its exchange on every line of the client. -/
theorem performs_call {args : List Value} (hcount : args.length < UInt32.size) :
    Performs client (Handle.callPath p args)
      (exchange (.call p args) (awaitResults client.settings)) := by
  rw [← call_eq hcount]
  exact performs_performAt hnames

/-- Reading a value is its exchange on every line of the client. -/
theorem performs_get :
    Performs client (Handle.getPath p) (exchange (.get p) Session.readValue) := by
  rw [← get_eq]
  exact performs_performAt hnames

/-- Assigning a value is its exchange on every line of the client. -/
theorem performs_set (key value : Value) :
    Performs client (Handle.setPath p key value) (exchange (.set p key value) awaitStatus) := by
  rw [← set_eq]
  exact performs_performAt hnames

end

namespace Ready

variable (hj : j.Ready f) (hkeep : h.adopt = keepBlob) (hrounds : 2 ≤ rounds)
  (hnames : p.check j.client.settings.maxNameLength = .ok ()) (hfits : Text.Fits p.text)

include hj hkeep hrounds hnames hfits

section

variable {args : List Value} (hcount : args.length < UInt32.size)
  (hargs : ∀ v ∈ args, v.Encodable f)

include hcount hargs

/-- A call that succeeds brings the results of the invocation. -/
theorem ends_call_ok {results : List Value}
    (hinvoke : h.invoke j.server.host (.parse p.text) (args.map (Value.quantise f)) =
      (.ok results, host))
    (hlength : results.length < UInt32.size) (hresults : ∀ v ∈ results, v.Encodable f) :
    j.Ends f h rounds (Handle.callPath p args) (.ok (results.map (Value.quantise f))) host := by
  have hact := performs_call hnames hcount
  have hop := Operation.encodable_call hfits hcount hargs
  have hanswers := respond_call_ok (f := f) hinvoke hlength hresults
  have hdoes := awaitResults_does_results hj.supported j.client.settings hlength hresults
  exact hj.ends_exchange hkeep hact hop hanswers (awaitResults_stalls _) hdoes nofun
    hrounds

/-- A call that fails brings the failure of the invocation. -/
theorem ends_call_error {e : HostError}
    (hinvoke : h.invoke j.server.host (.parse p.text) (args.map (Value.quantise f)) =
      (.error e, host))
    (hmessage : Text.Fits e.message) :
    j.Ends f h rounds (Handle.callPath p args) (.error (.remote e.code e.message)) host := by
  have hact := performs_call hnames hcount
  have hop := Operation.encodable_call hfits hcount hargs
  have hanswers := respond_call_error (f := f) hinvoke hmessage
  have hdoes := awaitResults_does_failure (f := f) j.client.settings e.code hmessage
  exact hj.ends_exchange hkeep hact hop hanswers (awaitResults_stalls _) hdoes
    (answered_remote _ _).not_closes hrounds

end

/-- A read brings the value at the path. -/
theorem ends_get_ok {v : Value} (hresolve : h.resolve j.server.host (.parse p.text) = .ok v)
    (hv : v.Encodable f) :
    j.Ends f h rounds (Handle.getPath p) (.ok (v.quantise f)) j.server.host := by
  have hact := performs_get hnames
  have hanswers := respond_get_ok (f := f) hresolve hv
  exact hj.ends_exchange hkeep hact (Operation.encodable_get hfits) hanswers readValue_stalls
    (readValue_does hj.supported hv) nofun hrounds

/-- A read where nothing lives brings nil. -/
theorem ends_get_missing {e : HostError}
    (hresolve : h.resolve j.server.host (.parse p.text) = .error e) (he : e.isNotFound = true) :
    j.Ends f h rounds (Handle.getPath p) (.ok .nil) j.server.host := by
  have hact := performs_get hnames
  have hanswers := respond_get_missing (f := f) hresolve he
  exact hj.ends_exchange hkeep hact (Operation.encodable_get hfits) hanswers readValue_stalls
    (readValue_does (v := .nil) hj.supported rfl) nofun hrounds

section

variable {key value : Value} (hkey : key.Encodable f) (hvalue : value.Encodable f)

include hkey hvalue

/-- An assignment that succeeds is made on the other side. -/
theorem ends_set_ok
    (hassign : h.assign j.server.host (.parse p.text) (key.quantise f) (value.quantise f) =
      (.ok (), host)) :
    j.Ends f h rounds (Handle.setPath p key value) (.ok ()) host := by
  have hact := performs_set hnames key value
  have hop := Operation.encodable_set hfits hkey hvalue
  have hanswers := respond_set_ok (f := f) hassign
  exact hj.ends_exchange hkeep hact hop hanswers awaitStatus_stalls awaitStatus_does_done nofun
    hrounds

/-- An assignment that fails brings the failure of the other side. -/
theorem ends_set_error {e : HostError}
    (hassign : h.assign j.server.host (.parse p.text) (key.quantise f) (value.quantise f) =
      (.error e, host))
    (hmessage : Text.Fits e.message) :
    j.Ends f h rounds (Handle.setPath p key value) (.error (.remote e.code e.message)) host := by
  have hact := performs_set hnames key value
  have hop := Operation.encodable_set hfits hkey hvalue
  have hanswers := respond_set_error (f := f) hassign hmessage
  have hdoes := awaitStatus_does_failure (f := f) e.code hmessage
  exact hj.ends_exchange hkeep hact hop hanswers awaitStatus_stalls hdoes
    (answered_remote _ _).not_closes hrounds

end

end Ready

end

section

variable {φ : Type} [Callable φ] {f : Format} {j : Joined (Namespace φ)} {rounds : Nat} {p : Path}

/-- A remote operation ends as the local one does at the path that the dotted text names, on the
arguments as the format carries them: the results and the values read come back as the format
carries them, a failure comes back as its code and its text, and what is not there reads as nil. -/
theorem remote_eq_local (hj : j.Ready f) (hrounds : 2 ≤ rounds)
    (hnames : p.check j.client.settings.maxNameLength = .ok ()) (hfits : Text.Fits p.text) :
    (∀ args : List Value, args.length < UInt32.size → (∀ v ∈ args, v.Encodable f) →
      ∀ outcome ns,
        j.server.host.invoke (.parse p.text) (args.map (Value.quantise f)) = (outcome, ns) →
        (∀ results, outcome = .ok results → results.length < UInt32.size →
          (∀ v ∈ results, v.Encodable f) →
          j.Ends f Namespace.host rounds (Handle.callPath p args)
            (.ok (results.map (Value.quantise f))) ns) ∧
        ∀ e, outcome = .error e → Text.Fits e.message →
          j.Ends f Namespace.host rounds (Handle.callPath p args)
            (.error (.remote e.code e.message)) ns) ∧
    (∀ v, j.server.host.resolve (.parse p.text) = .ok v → v.Encodable f →
      j.Ends f Namespace.host rounds (Handle.getPath p) (.ok (v.quantise f)) j.server.host) ∧
    (∀ e, j.server.host.resolve (.parse p.text) = .error e →
      j.Ends f Namespace.host rounds (Handle.getPath p) (.ok .nil) j.server.host) ∧
    ∀ key value : Value, key.Encodable f → value.Encodable f →
      ∀ outcome ns,
        j.server.host.assign (.parse p.text) (key.quantise f) (value.quantise f) = (outcome, ns) →
        (outcome = .ok () →
          j.Ends f Namespace.host rounds (Handle.setPath p key value) (.ok ()) ns) ∧
        ∀ e, outcome = .error e → Text.Fits e.message →
          j.Ends f Namespace.host rounds (Handle.setPath p key value)
            (.error (.remote e.code e.message)) ns := by
  have hkeep : (Namespace.host : Host (Namespace φ)).adopt = keepBlob := rfl
  refine ⟨?_, ?_, ?_, ?_⟩
  · intro args hcount hargs outcome ns hinvoke
    constructor
    · rintro results rfl hlength hresults
      exact hj.ends_call_ok hkeep hrounds hnames hfits hcount hargs hinvoke hlength hresults
    · rintro e rfl hmessage
      exact hj.ends_call_error hkeep hrounds hnames hfits hcount hargs hinvoke hmessage
  · intro v hresolve hv
    exact hj.ends_get_ok hkeep hrounds hnames hfits hresolve hv
  · intro e hresolve
    have he := Namespace.isNotFound_of_resolve hresolve
    exact hj.ends_get_missing hkeep hrounds hnames hfits hresolve he
  · intro key value hkey hvalue outcome ns hassign
    constructor
    · rintro rfl
      exact hj.ends_set_ok hkeep hrounds hnames hfits hkey hvalue hassign
    · rintro e rfl hmessage
      exact hj.ends_set_error hkeep hrounds hnames hfits hkey hvalue hassign hmessage

end

/-- A fresh handle calls the counter of the demo namespace, whose result comes back as a float. -/
theorem remote_eq_local_counter :
    ∃ j ns, greet {} .host 1 demo = .ok j ∧
      demo.invoke (.parse "counter") [] = (.ok [.integer 1], ns) ∧
      j.Ends .host Namespace.host 2 (Handle.callPath ⟨["counter"]⟩ [])
        (.ok [.float ⟨0x3ff0000000000000⟩]) ns := by
  have hjoined : ∃ j, greet {} .host 1 demo = .ok j ∧ j.Ready .host ∧ j.server.host = demo ∧
      j.client.settings = {} := ready_of_greet (by decide) (by decide) (Nat.le_refl 1) demo
  obtain ⟨j, hgreet, hready, hhost, hsettings⟩ := hjoined
  have hnames : (Path.mk ["counter"]).check j.client.settings.maxNameLength = .ok () := by
    rw [hsettings]
    rfl
  have hfits : Text.Fits (Path.mk ["counter"]).text := by
    unfold Text.Fits
    decide +kernel
  have hinvoke : ∃ ns, demo.invoke (.parse "counter") [] = (.ok [.integer 1], ns) := ⟨_, rfl⟩
  obtain ⟨ns, hinvoke⟩ := hinvoke
  have hlocal : j.server.host.invoke (.parse (Path.mk ["counter"]).text)
      (([] : List Value).map (Value.quantise .host)) = (.ok [.integer 1], ns) := by
    rw [hhost]
    exact hinvoke
  have hone : Format.host.quantise (.ofInt 1) = ⟨⟨0x3ff0000000000000⟩, .float⟩ := by
    decide +kernel
  have hcall := (remote_eq_local hready (Nat.le_refl 2) hnames hfits).1 [] (by decide) nofun
    (.ok [.integer 1]) ns hlocal
  have hresults : ∀ v ∈ [Value.integer 1], v.Encodable .host := by
    intro v hv
    rw [List.mem_singleton.mp hv]
    rfl
  have hends := hcall.1 [.integer 1] rfl (by decide) hresults
  refine ⟨j, ns, hgreet, hinvoke, ?_⟩
  simp only [List.map_cons, List.map_nil, Value.integer, Value.quantise, hone] at hends
  exact hends

end Joined

end RemoteCall
