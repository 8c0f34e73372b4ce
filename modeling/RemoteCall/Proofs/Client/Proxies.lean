import RemoteCall.Client.Proxy
import RemoteCall.Proofs.Client.Boundary
import RemoteCall.Proofs.Path
import RemoteCall.Proofs.Remote.Client

/-!
# Proxies with one path

A path can be collected in many ways, for a name may hold dots or be empty. Reading and assigning go
by the path alone, and so does the value that stands for it. A call does not: it looks at the last
name as it was given, and at whether any names stand before it. So calls through two proxies with
one path are the same exactly when both of them read their parents or neither does, and otherwise
already their first bytes differ.
-/

namespace RemoteCall

namespace Handle

variable {α : Type} [Inhabited α] {h : Handle}

/-- The handle is open, its line takes everything, and nothing has come from its server. -/
structure Unanswered (h : Handle) : Prop where
  isOpen : h.isOpen = true
  free : h.conn.line.intake = .free
  silent : ∃ after e left, h.conn.line.inbound.Brings [] after ∧ Inbound.Meets after e left

/-- An exchange that gets no consent has sent its command. -/
theorem written_performAt_of_unanswered (act : ClientSettings → Session α) {p : Path}
    {op : Operation} {reply : Session α} (hp : p.check h.settings.maxNameLength = .ok ())
    (hact : act h.settings = Exchange.exchange op reply) (hh : h.Unanswered) :
    (performAt p act h).2.conn.line.written = h.conn.line.written ++ [op.command.toByte] := by
  obtain ⟨after, e, left, hin, hmeets⟩ := hh.silent
  have hstalls : Session.Stalls h.conn.format (Exchange.exchange op reply) [] _ :=
    Exchange.exchange_stalls_at_start op
  obtain ⟨later, hrun, -, hwritten⟩ :=
    hstalls h.conn after e left ⟨hh.isOpen, rfl⟩ hh.free hin hmeets
  rw [performAt_of_check hp, perform, hact, hrun]
  exact (written_finish _).trans hwritten

end Handle

namespace Proxy

variable {settings : ClientSettings} {p q : Proxy} {first first' : String}
  {rest rest' : List String}

/-! ### Chains -/

/-- No name of the proxy is overlong. -/
def Short (settings : ClientSettings) (p : Proxy) : Prop :=
  ∀ name ∈ p.names, name.utf8ByteSize ≤ settings.maxNameLength

/-- A name that passes its check keeps a proxy short. -/
theorem short_of_checkSegment {parents : List String} {name : String} {u : Unit}
    (hparents : ∀ name ∈ parents, name.utf8ByteSize ≤ settings.maxNameLength)
    (hname : Path.checkSegment name settings.maxNameLength = .ok u) :
    Short settings ⟨parents, name⟩ := by
  unfold Path.checkSegment at hname
  split at hname
  · exact nomatch hname
  · rename_i hshort
    intro other hother
    rcases List.mem_append.mp hother with hother | hother
    · exact hparents other hother
    · rw [List.mem_singleton.mp hother]
      exact Nat.le_of_not_lt hshort

/-- A proxy is extended by a name that is not overlong. -/
theorem Short.index {name : String} (hp : p.Short settings)
    (hq : p.index settings name = .ok q) : q = ⟨p.names, name⟩ ∧ q.Short settings := by
  unfold Proxy.index at hq
  cases hcheck : Path.checkSegment name settings.maxNameLength with
  | error e =>
    rw [hcheck] at hq
    exact nomatch hq
  | ok u =>
    rw [hcheck] at hq
    cases hq
    exact ⟨rfl, short_of_checkSegment hp hcheck⟩

/-- Extending a proxy by names one after another adds these names. -/
theorem Short.extend (hp : p.Short settings)
    (hq : rest.foldlM (fun p name => p.index settings name) p = .ok q) :
    q.names = p.names ++ rest ∧ q.Short settings := by
  induction rest generalizing p with
  | nil =>
    cases hq
    exact ⟨(List.append_nil _).symm, hp⟩
  | cons name rest ih =>
    rw [List.foldlM_cons] at hq
    cases hindex : p.index settings name with
    | error e =>
      rw [hindex] at hq
      exact nomatch hq
    | ok next =>
      rw [hindex] at hq
      obtain ⟨rfl, hnext⟩ := hp.index hindex
      obtain ⟨hnames, hshort⟩ := ih hnext hq
      refine ⟨?_, hshort⟩
      rw [hnames, names, List.append_assoc, List.singleton_append]

/-- A chain holds the names that it was built of, and none of them is overlong. -/
theorem names_of_chain (hp : chain settings first rest = .ok p) :
    p.names = first :: rest ∧ p.Short settings := by
  unfold chain global at hp
  cases hcheck : Path.checkSegment first settings.maxNameLength with
  | error e =>
    rw [hcheck] at hp
    exact nomatch hp
  | ok u =>
    rw [hcheck] at hp
    have hshort : Short settings ⟨[], first⟩ :=
      short_of_checkSegment (fun _ h => absurd h List.not_mem_nil) hcheck
    exact hshort.extend hp

/-- What was short enough to be collected is short enough to be sent. -/
theorem check_pathOf {names : List String} {limit : Nat}
    (hnames : ∀ name ∈ names, name.utf8ByteSize ≤ limit) : (pathOf names).check limit = .ok () := by
  rcases (pathOf names).check_cases limit with
    ⟨hok, -⟩ | ⟨e, -, before, name, after, hsplit, -, hlong, -⟩
  · exact hok
  · have hmem : name ∈ (pathOf names).segments := by
      rw [hsplit]
      exact List.mem_append_right _ (List.mem_cons_self ..)
    rw [pathOf, Path.segments_parse_joined] at hmem
    obtain ⟨whole, hwhole, hname⟩ := List.mem_flatMap.mp hmem
    have := Path.utf8ByteSize_le_of_mem_parse hname
    have := hnames whole hwhole
    omega

/-! ### Calls -/

/-- A call reads the parent: the last name is `get`, and names stand before it. -/
def ReadsParent (p : Proxy) : Prop := p.name = "get" ∧ p.parents ≠ []

instance (p : Proxy) : Decidable p.ReadsParent := inferInstanceAs (Decidable (_ ∧ _))

/-- The command that a call sends. -/
def command (p : Proxy) : Command := if p.ReadsParent then .get else .call

/-- Calling a proxy that reads its parent asks for the value there. -/
theorem call_of_readsParent (hp : p.ReadsParent) (args : List Value) :
    p.call args = do return [← Handle.getPath (pathOf p.parents)] := by
  obtain ⟨hname, hparents⟩ := hp
  rw [call, if_pos (by simp [hname, hparents])]

/-- Calling any other proxy calls the function at its path. -/
theorem call_of_not_readsParent (hp : ¬ p.ReadsParent) (args : List Value) :
    p.call args = Handle.callPath p.path args := by
  have hcond : (p.name = "get" && !p.parents.isEmpty) = false := by
    rw [Bool.eq_false_iff]
    simpa [ReadsParent] using hp
  rw [call, hcond, if_neg Bool.false_ne_true]

/-- Proxies with one path that read their parents have parents with one path. -/
theorem pathOf_parents_eq (hpath : p.path = q.path) (hp : p.ReadsParent) (hq : q.ReadsParent) :
    pathOf p.parents = pathOf q.parents := by
  have hsplit : ∀ r : Proxy, r.ReadsParent →
      r.path.segments = (pathOf r.parents).segments ++ (Path.parse "get").segments := by
    rintro r ⟨hname, -⟩
    rw [path, pathOf, Path.segments_parse_joined, names, List.flatMap_append, hname,
      ← Path.segments_parse_joined, List.flatMap_singleton]
    rfl
  have hsegments := congrArg Path.segments hpath
  rw [hsplit p hp, hsplit q hq] at hsegments
  exact congrArg Path.mk (List.append_cancel_right hsegments)

/-- Two proxies of one path that both read their parent or both do not are called alike. -/
theorem call_eq_call (hpath : p.path = q.path) (hreads : p.ReadsParent ↔ q.ReadsParent)
    (args : List Value) : p.call args = q.call args := by
  by_cases hp : p.ReadsParent
  · rw [call_of_readsParent hp, call_of_readsParent (hreads.mp hp),
      pathOf_parents_eq hpath hp (hreads.mp hp)]
  · rw [call_of_not_readsParent hp, call_of_not_readsParent (mt hreads.mpr hp), hpath]

/-- To a server that has not answered yet a call sends its command and nothing else. -/
theorem written_call {h : Handle} {args : List Value} (hp : p.Short h.settings)
    (hargs : args.length < UInt32.size) (hh : h.Unanswered) :
    (p.call args h).2.conn.line.written = h.conn.line.written ++ [p.command.toByte] := by
  by_cases hreads : p.ReadsParent
  · have hparents : (pathOf p.parents).check h.settings.maxNameLength = .ok () :=
      check_pathOf fun name hname => hp name (List.mem_append_left _ hname)
    have hwritten := Handle.written_performAt_of_unanswered
      (fun _ => Exchange.get (pathOf p.parents)) hparents (Exchange.get_eq _) hh
    rw [call_of_readsParent hreads, command, if_pos hreads]
    cases hrun : Handle.getPath (pathOf p.parents) h with
    | mk result later =>
      rw [show Handle.performAt _ _ h = (result, later) from hrun] at hwritten
      cases result with
      | ok v =>
        rw [bind_of_ok hrun]
        exact hwritten
      | error e =>
        rw [bind_of_error hrun]
        exact hwritten
  · have hpath : p.path.check h.settings.maxNameLength = .ok () := check_pathOf hp
    have hwritten := Handle.written_performAt_of_unanswered
      (fun settings => Exchange.call settings p.path args) hpath (Exchange.call_eq hargs) hh
    rw [call_of_not_readsParent hreads, command, if_neg hreads]
    exact hwritten

/-- An open handle whose server says nothing. -/
def unanswered (settings : ClientSettings) : Handle :=
  { conn := .ofLine (.ofBytes []) .host, settings }

/-- Nobody answers a handle whose server says nothing. -/
theorem unanswered_unanswered (settings : ClientSettings) : (unanswered settings).Unanswered :=
  ⟨rfl, rfl, [], .eof, [], Inbound.brings_empty, .ending⟩

/-- Names that can stand between dots are all that the path says. -/
theorem eq_of_path_eq (hpath : p.path = q.path)
    (hnames : ∀ name ∈ p.names ++ q.names, Path.IsName name) : p = q := by
  have hpath' : ∀ r : Proxy, (∀ name ∈ r.names, Path.IsName name) → r.path = ⟨r.names⟩ :=
    fun _ hr => Path.parse_text (p := ⟨_⟩) hr
  rw [hpath' p fun name hname => hnames name (List.mem_append_left _ hname),
    hpath' q fun name hname => hnames name (List.mem_append_right _ hname), Path.mk.injEq] at hpath
  obtain ⟨hparents, hname⟩ := List.append_inj' hpath rfl
  obtain ⟨parents, name⟩ := p
  cases hparents
  cases hname
  rfl

/-- Two proxies of one handle with one path read, assign and stand for the same. Calls through them
are the same exactly when both of them read their parents or neither does, and otherwise they have
sent different bytes before the server says anything. Proxies whose names can stand between dots are
equal. -/
theorem interchangeable_iff_readsParent (hp : chain settings first rest = .ok p)
    (hq : chain settings first' rest' = .ok q) (hpath : p.path = q.path) :
    p.get = q.get ∧ (∀ key value, p.set key value = q.set key value) ∧ p.toValue = q.toValue ∧
    ((∀ args, p.call args = q.call args) ↔ (p.ReadsParent ↔ q.ReadsParent)) ∧
    (¬ (p.ReadsParent ↔ q.ReadsParent) → ∀ (args : List Value) (h : Handle),
      args.length < UInt32.size → h.settings = settings → h.Unanswered →
      (p.call args h).2.conn.line.written ≠ (q.call args h).2.conn.line.written) ∧
    ((∀ name ∈ p.names ++ q.names, Path.IsName name) → p = q) := by
  have hdiffer : ¬ (p.ReadsParent ↔ q.ReadsParent) → ∀ (args : List Value) (h : Handle),
      args.length < UInt32.size → h.settings = settings → h.Unanswered →
      (p.call args h).2.conn.line.written ≠ (q.call args h).2.conn.line.written := by
    intro hreads args h hargs hsettings hh hsame
    subst hsettings
    rw [written_call (names_of_chain hp).2 hargs hh, written_call (names_of_chain hq).2 hargs hh]
      at hsame
    have hbyte := List.append_cancel_left hsame
    unfold command at hbyte
    by_cases hpr : p.ReadsParent <;> by_cases hqr : q.ReadsParent <;> simp_all [Command.toByte]
  refine ⟨?_, ?_, ?_, ⟨?_, call_eq_call hpath⟩, hdiffer, eq_of_path_eq hpath⟩
  · rw [get, get, hpath]
  · intro key value
    rw [set, set, hpath]
  · rw [toValue, toValue, hpath]
  · intro hcalls
    refine Classical.not_not.mp fun hreads => ?_
    have hne := hdiffer hreads [] (unanswered settings) (by decide) rfl (unanswered_unanswered _)
    rw [hcalls []] at hne
    exact hne rfl

/-- However `a.b` is split in front of a last name `get`, with an empty name or without one, a call
reads it. -/
theorem interchangeable_iff_readsParent_split :
    chain {} "a.b" ["", "get"] = .ok ⟨["a.b", ""], "get"⟩ ∧
    chain {} "a" ["b", "get"] = .ok ⟨["a", "b"], "get"⟩ ∧
    path ⟨["a.b", ""], "get"⟩ = path ⟨["a", "b"], "get"⟩ ∧
    ∀ args, call ⟨["a.b", ""], "get"⟩ args = call ⟨["a", "b"], "get"⟩ args := by
  have hp : chain {} "a.b" ["", "get"] = .ok ⟨["a.b", ""], "get"⟩ := rfl
  have hq : chain {} "a" ["b", "get"] = .ok ⟨["a", "b"], "get"⟩ := rfl
  have hpath : path ⟨["a.b", ""], "get"⟩ = path ⟨["a", "b"], "get"⟩ := by decide +kernel
  refine ⟨hp, hq, hpath, ?_⟩
  exact (interchangeable_iff_readsParent hp hq hpath).2.2.2.1.mpr (by decide +kernel)

/-- With a name `get` of its own a call reads `cfg`, and with the names `cfg` and `get` in one it
calls the function at the same path: to a server that says `true` the requests differ, and so do the
results. -/
theorem call_heeds_split :
    chain {} "cfg" ["get"] = .ok ⟨["cfg"], "get"⟩ ∧ chain {} "cfg.get" [] = .ok ⟨[], "cfg.get"⟩ ∧
    path ⟨["cfg"], "get"⟩ = path ⟨[], "cfg.get"⟩ ∧
    (call ⟨["cfg"], "get"⟩ [] (Handle.answered [2, 1])).1.isOk = true ∧
    (call ⟨[], "cfg.get"⟩ [] (Handle.answered [2, 1])).1.isOk = false ∧
    (call ⟨["cfg"], "get"⟩ [] (Handle.answered [2, 1])).2.conn.line.written =
      [2, 3, 0, 0, 0, 0x63, 0x66, 0x67] ∧
    (call ⟨[], "cfg.get"⟩ [] (Handle.answered [2, 1])).2.conn.line.written =
      [1, 7, 0, 0, 0, 0x63, 0x66, 0x67, 0x2e, 0x67, 0x65, 0x74, 0, 0, 0, 0] :=
  ⟨rfl, rfl, by decide +kernel⟩

end Proxy

end RemoteCall
