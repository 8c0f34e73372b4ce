import RemoteCall.Proofs.Client.LifeCycle
import RemoteCall.Proofs.Serve.Closed
import RemoteCall.Proofs.Server.Interleaving

/-!
# Formats in effect

A connection begins in the format of its own side, and only a handshake puts another one into
effect: a client adopts the format of a header that it accepts, a server one that it settles between
its own and such a header. So whatever the other side sends, and however an exchange ends, the
format in effect is one that is supported.
-/

namespace RemoteCall

variable {σ α β : Type} {own : Format}

/-- A connection of a side with this format of its own, in a format that is supported. -/
structure Connection.Sound (own : Format) (c : Connection) : Prop where
  native_eq : c.native = own
  supported : c.format.isSupported = true

namespace Connection

variable {c c' : Connection}

/-- A connection begins in the format of its own side. -/
theorem sound_ofLine (hown : own.isSupported = true) (line : Line) : (ofLine line own).Sound own :=
  ⟨rfl, hown⟩

/-- A connection stays sound while its line and its formats stay. -/
theorem Sound.of_standing (hc : c.Sound own) (h : c'.standing = c.standing) : c'.Sound own := by
  simp only [standing, Prod.mk.injEq] at h
  exact ⟨h.2.1.trans hc.native_eq, h.2.2.symm ▸ hc.supported⟩

/-- Nothing about the line matters. -/
theorem Sound.withLine (hc : c.Sound own) (line : Line) :
    ({ c with line } : Connection).Sound own :=
  ⟨hc.native_eq, hc.supported⟩

end Connection

namespace Session

open Connection

variable {c : Connection} {x : Session α} {k : α → Session β}

/-- However the session ends, it leaves a sound connection sound. -/
def Preserves (own : Format) (x : Session α) : Prop := ∀ c, c.Sound own → (x c).2.Sound own

/-- What leaves the formats alone leaves a connection sound. -/
theorem Keeps.preserves (h : Keeps steady x) : Preserves own x :=
  fun c hc => hc.of_standing (congrArg Prod.fst (h c))

/-- What settles a time limit leaves a connection sound. -/
theorem Settles.preserves {limit : Option Duration} (h : Settles limit x) : Preserves own x :=
  fun c hc => hc.of_standing (h c).1

/-- Sessions that leave a connection sound do so one after the other. -/
theorem Preserves.bind (hx : Preserves own x) (hk : ∀ a, Preserves own (k a)) :
    Preserves own (x >>= k) := by
  intro c hc
  have hlater := hx c hc
  cases hrun : x c with
  | mk result later =>
    rw [hrun] at hlater
    cases result with
    | ok a =>
      rw [bind_of_ok hrun]
      exact hk a later hlater
    | error e =>
      rw [bind_of_error hrun]
      exact hlater

/-- Failing changes no connection. -/
theorem preserves_throw (e : Error) : Preserves own (throw e : Session α) := fun _ hc => hc

/-- Adopting a supported format leaves a connection sound. -/
theorem preserves_adopt {f : Format} (hf : f.isSupported = true) : Preserves own (adopt f) :=
  fun _ hc => ⟨hc.native_eq, hf⟩

/-- A handshake settles on a supported format, and fails with the format as it was. -/
theorem negotiateServer_preserves (hown : own.isSupported = true) :
    Preserves own negotiateServer := by
  refine (receive_keeps_steady _).preserves.bind fun header => ?_
  cases hheader : Header.decode header with
  | error e => exact preserves_throw e
  | ok peer =>
    intro c hc
    have hagreed : (c.native.reconcile peer).isSupported = true := by
      rw [hc.native_eq]
      exact Format.isSupported_reconcile hown (Header.isValid_of_decode hheader)
    have hsettle : Preserves own (settle (c.native.reconcile peer)) :=
      (send_keeps_steady _).preserves.bind fun _ => flush_keeps_steady.preserves.bind fun _ =>
        preserves_adopt hagreed
    exact hsettle c hc

/-- Accepting a handshake adopts a settled format or none. -/
theorem acceptHandshake_preserves (hown : own.isSupported = true) :
    Preserves own acceptHandshake := by
  refine (receive_keeps_steady _).preserves.bind fun first => ?_
  by_cases hfirst : first = Command.connect.toByte
  · rw [if_neg (not_not_intro hfirst)]
    exact negotiateServer_preserves hown
  · rw [if_pos hfirst]
    exact preserves_throw _

/-- A client adopts a supported format, and fails with the format as it was. -/
theorem negotiateClient_preserves : Preserves own negotiateClient := by
  intro c hc
  cases hopen : c.isOpen with
  | false =>
    rw [negotiateClient_of_closed hopen]
    exact hc
  | true =>
    rcases negotiateClient_cases hopen with
      ⟨agreed, later, hrun, hagreed, hsteady⟩ | ⟨e, later, hrun, -, hnative, hformat, -⟩
    · have hlater := hc.of_standing (congrArg Prod.fst hsteady)
      rw [hrun]
      exact ⟨hlater.native_eq, hagreed⟩
    · rw [hrun]
      exact ⟨hnative.trans hc.native_eq, hformat.symm ▸ hc.supported⟩

end Session

/-! ### Clients -/

namespace Handle

variable {h : Handle}

/-- Whatever is done with a handle, its connection stays sound. -/
theorem sound_run (d : Deed) (hh : h.conn.Sound own) : (d.run h).2.conn.Sound own := by
  have hattempt : (d.attempt h.settings h.conn).2.Sound own := by
    cases d with
    | operate op => exact (Deed.settles_operate h.settings op).preserves h.conn hh
    | reconnect => exact Session.negotiateClient_preserves h.conn hh
    | close => exact hh.withLine _
    | watch handler => exact hh
    | unwatch => exact hh
  rw [d.run_eq h]
  cases (d.attempt h.settings h.conn).1 with
  | ok a => exact hattempt
  | error e =>
    unfold finish
    rw [conn_tell]
    split <;> exact hattempt.withLine _

/-- Whatever is done with a handle one after the other, its connection stays sound. -/
theorem sound_afterAll (deeds : List Deed) (hh : h.conn.Sound own) :
    (h.afterAll deeds).conn.Sound own := by
  induction deeds generalizing h with
  | nil => exact hh
  | cons d rest ih => exact ih (sound_run d hh)

/-- The connection of a handshake is sound whether or not there is a handle for it. -/
theorem sound_ofLine {settings : ClientSettings} (hformat : settings.format.isSupported = true)
    (line : Line) : (ofLine line settings).2.Sound settings.format := by
  have hstart := Connection.sound_ofLine hformat line
  have hconnect : (Exchange.connect settings (.ofLine line settings.format)).2.Sound
      settings.format := by
    cases hopen : line.isOpen with
    | false =>
      rw [Exchange.connect_of_closed (c := .ofLine line settings.format) hopen]
      exact hstart
    | true =>
      rw [Exchange.connect_of_open (c := .ofLine line settings.format) hopen]
      have hlater := Session.negotiateClient_preserves
        ((Connection.ofLine line settings.format).limitTo settings.communicationTimeout)
        (hstart.withLine _)
      generalize Session.negotiateClient _ = ran at hlater ⊢
      obtain ⟨result, later⟩ := ran
      cases result with
      | ok u => exact hlater
      | error e => exact hlater.withLine _
  unfold ofLine
  generalize Exchange.connect settings (.ofLine line settings.format) = ran at hconnect ⊢
  obtain ⟨result, conn⟩ := ran
  cases result <;> exact hconnect

end Handle

/-! ### Servers -/

namespace Serving

variable {h : Host σ} {x : Serving σ α} {k : α → Serving σ β}

/-- However the computation ends, it leaves a sound connection sound. -/
def Preserves (own : Format) (x : Serving σ α) : Prop :=
  ∀ s, s.conn.Sound own → (x s).2.conn.Sound own

/-- A session of the server leaves a connection as sound as it does anywhere. -/
theorem preserves_onConn {y : Session α} (hy : Session.Preserves own y) :
    Preserves own (onConn y : Serving σ α) := fun s hs => hy s.conn hs

/-- The host does not touch the connection. -/
theorem preserves_onHost (act : σ → α × σ) : Preserves own (onHost act) := fun _ hs => hs

/-- Giving a value changes no connection. -/
theorem preserves_pure (a : α) : Preserves own (pure a : Serving σ α) := fun _ hs => hs

/-- Failing changes no connection. -/
theorem preserves_throw (e : Error) : Preserves own (throw e : Serving σ α) := fun _ hs => hs

/-- Computations that leave a connection sound do so one after the other. -/
theorem Preserves.bind (hx : Preserves own x) (hk : ∀ a, Preserves own (k a)) :
    Preserves own (x >>= k) := by
  intro s hs
  have hlater := hx s hs
  cases hrun : x s with
  | mk result later =>
    rw [hrun] at hlater
    cases result with
    | ok a =>
      rw [bind_of_ok hrun]
      exact hk a later hlater
    | error e =>
      rw [bind_of_error hrun]
      exact hlater

/-- Reading and writing change no format. -/
theorem preserves_steady {y : Session α} (hy : Session.Keeps Connection.steady y) :
    Preserves own (onConn y : Serving σ α) := preserves_onConn hy.preserves

/-- Serving a request preserves soundness, for everything it is put together from does. -/
theorem closed_preserves (hown : own.isSupported = true) : Closed (σ := σ) (Preserves own) where
  result := preserves_pure
  violation _ := preserves_throw _
  command _ := preserves_throw _
  host := preserves_onHost
  string := preserves_steady (Session.receive_keeps_steady _)
  word := preserves_steady (Session.receive_keeps_steady _)
  value := preserves_steady (Session.receive_keeps_steady _)
  send _ := preserves_steady (Session.send_keeps_steady _)
  flush := preserves_steady Session.flush_keeps_steady
  negotiate := preserves_onConn (Session.negotiateServer_preserves hown)
  seq hx hk := hx.bind hk

open Session in
/-- Serving a request leaves a sound connection sound, whatever the peer sends. -/
theorem serveOne_preserves (hown : own.isSupported = true) (h : Host σ) :
    Preserves own (serveOne h) := by
  have hcommand : Keeps Connection.steady readCommand := by
    refine (receive_keeps_steady _).bind fun first => ?_
    split
    · exact keeps_pure _
    · exact keeps_throw _
  rw [serveOne_eq]
  exact (preserves_steady hcommand).bind ((closed_preserves hown).serveCommand h)

/-- Waiting for a handshake leaves a connection sound, however many rounds it takes. -/
theorem awaitHandshake_preserves (hown : own.isSupported = true) (rounds : Nat) :
    Session.Preserves own (awaitHandshake rounds) := by
  induction rounds with
  | zero => exact Session.preserves_throw .eof
  | succ rounds ih =>
    intro c hc
    have hlater := Session.acceptHandshake_preserves hown c hc
    rw [awaitHandshake]
    dsimp only
    split
    · rename_i later hrun
      rw [hrun] at hlater
      exact ih later hlater
    · exact hlater

/-- Serving requests leaves a connection sound, however many rounds it takes. -/
theorem serveRequests_preserves (hown : own.isSupported = true) (h : Host σ) (rounds : Nat) :
    Preserves own (serveRequests h rounds) := by
  induction rounds with
  | zero => exact preserves_throw .eof
  | succ rounds ih =>
    intro s hs
    have hlater := serveOne_preserves hown h s hs
    rw [serveRequests]
    dsimp only
    split
    · rename_i later hrun
      rw [hrun] at hlater
      exact ih later hlater
    · rename_i e later hrun
      rw [hrun] at hlater
      split
      · exact hlater
      · exact ih later hlater
      · exact hlater

/-- The loop for one peer leaves its connection sound. -/
theorem serve_preserves (hown : own.isSupported = true) (h : Host σ) : Preserves own (serve h) := by
  refine (preserves_onConn fun c hc => ?_).bind fun _ s hs => ?_
  · exact awaitHandshake_preserves hown c.rounds c hc
  · exact serveRequests_preserves hown h s.conn.rounds s hs

/-- The loop begins each of its rounds with a sound connection. -/
theorem sound_round (hown : own.isSupported = true) (h : Host σ) {s t : Served σ}
    (hs : s.conn.Sound own) {n : Nat} (hround : round? h n s = some t) : t.conn.Sound own := by
  induction n generalizing t with
  | zero =>
    cases hround
    exact hs
  | succ n ih =>
    obtain ⟨u, hu, hadvance⟩ := Option.bind_eq_some_iff.mp hround
    rw [← eq_of_advance hadvance]
    exact serveOne_preserves hown h u (ih hu)

end Serving

/-- The connections of all workers are sound, of those that have left too. -/
def Registry.Sound (own : Format) (r : Registry) : Prop :=
  ∀ w ∈ r.workers ++ r.departed, w.conn.Sound own

namespace Registry

variable {r : Registry}

/-- A registry is sound exactly when the workers that are in it and those that have left are. -/
theorem sound_iff : r.Sound own ↔
    (∀ w ∈ r.workers, w.conn.Sound own) ∧ ∀ w ∈ r.departed, w.conn.Sound own :=
  List.forall_mem_append

/-- Serving the workers that are ready leaves all of them sound. -/
theorem sound_serveEach (hown : own.isSupported = true) (h : Host σ) (ready : Worker → Bool)
    {workers : List Worker} (hworkers : ∀ w ∈ workers, w.conn.Sound own) (state : σ) :
    ∀ w ∈ (serveEach h ready workers state).2.1, w.conn.Sound own := by
  induction workers generalizing state with
  | nil => exact hworkers
  | cons w rest ih =>
    obtain ⟨hw, hrest⟩ := List.forall_mem_cons.mp hworkers
    rw [serveEach]
    split
    · refine List.forall_mem_cons.mpr ⟨?_, ih hrest _⟩
      have hserved := Serving.serveOne_preserves hown h ⟨w.conn, state⟩ hw
      rw [Worker.serve]
      split
      · rename_i s hrun
        rw [hrun] at hserved
        exact hserved
      · rename_i e s hrun
        rw [hrun] at hserved
        exact hserved
    · exact List.forall_mem_cons.mpr ⟨hw, ih hrest _⟩

/-- Workers that leave are closed, and stay sound. -/
theorem sound_map_close {workers : List Worker} (hworkers : ∀ w ∈ workers, w.conn.Sound own) :
    ∀ w ∈ workers.map Worker.close, w.conn.Sound own := by
  intro w hw
  obtain ⟨v, hv, rfl⟩ := List.mem_map.mp hw
  exact (hworkers v hv).withLine _

/-- Workers that have ended leave soundly. -/
theorem Sound.sweep (hr : r.Sound own) : r.sweep.Sound own := by
  obtain ⟨hworkers, hdeparted⟩ := sound_iff.mp hr
  have hkept : ∀ (p : Worker → Bool), ∀ w ∈ r.workers.filter p, w.conn.Sound own :=
    fun p w hw => hworkers w (List.mem_filter.mp hw).1
  exact sound_iff.mpr
    ⟨hkept _, List.forall_mem_append.mpr ⟨hdeparted, sound_map_close (hkept _)⟩⟩

/-- All workers leave soundly. -/
theorem Sound.closeAll (hr : r.Sound own) : r.closeAll.Sound own := by
  obtain ⟨hworkers, hdeparted⟩ := sound_iff.mp hr
  exact sound_iff.mpr
    ⟨nofun, List.forall_mem_append.mpr ⟨hdeparted, sound_map_close hworkers⟩⟩

/-- A new worker is as sound as its connection. -/
theorem Sound.insert {conn : Connection} (hr : r.Sound own) (hconn : conn.Sound own) :
    (r.insert conn).Sound own := by
  obtain ⟨hworkers, hdeparted⟩ := sound_iff.mp hr
  refine sound_iff.mpr ⟨List.forall_mem_append.mpr ⟨hworkers, ?_⟩, hdeparted⟩
  intro w hw
  rw [List.mem_singleton.mp hw]
  exact hconn

end Registry

/-- The format of the server is supported, and the connections of its workers are sound. -/
structure Server.Sound (own : Format) (s : Server σ) : Prop where
  native_eq : s.native = own
  registry : s.registry.Sound own

namespace Server

variable {s : Server σ}

/-- A server that has just begun to listen has no workers. -/
theorem sound_bind {settings : ServerSettings} {host : σ} (hstart : bind settings host = .ok s) :
    s.Sound settings.format := by
  obtain rfl := eq_of_bind hstart
  exact ⟨rfl, nofun⟩

/-- A server that accepts whoever waits stays sound. -/
theorem Sound.accept (hown : own.isSupported = true) (hs : s.Sound own) : s.accept.Sound own := by
  unfold Server.accept
  split
  · exact hs
  · rename_i line rest _
    have hconn : (s.greet line).2.Sound own := by
      rw [greet, hs.native_eq]
      exact Session.acceptHandshake_preserves hown _ (Connection.sound_ofLine hown _)
    generalize s.greet line = greeted at hconn ⊢
    obtain ⟨result, conn⟩ := greeted
    cases result with
    | ok u => exact ⟨hs.native_eq, hs.registry.insert hconn⟩
    | error e => exact ⟨hs.native_eq, hs.registry⟩

/-- A server that ends its cycle stays sound. -/
theorem Sound.finishCycle (hown : own.isSupported = true) (hs : s.Sound own) (poll : Poll) :
    (s.finishCycle poll).Sound own := by
  have hswept : ({ s with registry := s.registry.sweep } : Server σ).Sound own :=
    ⟨hs.native_eq, hs.registry.sweep⟩
  unfold Server.finishCycle
  dsimp only
  split
  · exact hswept.accept hown
  · exact hswept

/-- A server stays sound through a whole cycle, whatever it finds. -/
theorem Sound.runOnce (hown : own.isSupported = true) (hs : s.Sound own) (h : Host σ)
    (poll : Poll) : (s.runOnce h poll).2.Sound own := by
  unfold Server.runOnce
  split
  · exact hs
  · obtain ⟨hworkers, hdeparted⟩ := Registry.sound_iff.mp hs.registry
    have hserved : (s.registry.serveReady h (isReady poll) s.host).2.1.Sound own :=
      Registry.sound_iff.mpr
        ⟨Registry.sound_serveEach hown h _ hworkers s.host, hdeparted⟩
    generalize s.registry.serveReady h (isReady poll) s.host = pass at hserved ⊢
    obtain ⟨fatal, registry, host⟩ := pass
    have hnext : ({ s with registry, host } : Server σ).Sound own := ⟨hs.native_eq, hserved⟩
    cases fatal with
    | nil => exact hnext.finishCycle hown poll
    | cons first others =>
      dsimp only
      split
      · have hreported : ({ s with
            registry, host
            reported := s.reported ++ (first :: others).map Prod.snd } : Server σ).Sound own :=
          ⟨hs.native_eq, hserved⟩
        exact hreported.finishCycle hown poll
      · exact ⟨hs.native_eq, hserved.closeAll⟩

/-- Whatever the cycles of a server find, the connections of its workers stay sound. -/
theorem Sound.cycles (hown : own.isSupported = true) (hs : s.Sound own) (h : Host σ)
    (polls : List Poll) : (s.cycles h polls).2.Sound own := by
  induction polls generalizing s with
  | nil => exact hs
  | cons poll rest ih =>
    have hnext := hs.runOnce hown h poll
    rw [Server.cycles]
    split
    · rename_i later hrun
      rw [hrun] at hnext
      exact ih hnext
    · rename_i e later hrun
      rw [hrun] at hnext
      exact hnext

end Server

end RemoteCall
