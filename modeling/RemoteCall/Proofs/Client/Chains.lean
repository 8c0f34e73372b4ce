import RemoteCall.Proofs.Client.Failures
import RemoteCall.Proofs.Client.Proxies

/-!
# Chains of names

The path of a proxy is that of all the names that were indexed, each read as the dotted text that it
is. So a chain whose names are short enough has a path of short names, and no operation through it
is refused for a name. Proxies share the names before their own: a name that is indexed is kept with
the place of the one before it, the path is found by going back from place to place, and what is
indexed later changes no path that there is.
-/

namespace RemoteCall

/-- An operation that can be sent, and leaves its handle open, has sent one frame. -/
theorem Handle.exists_frame_after {h : Handle} {op : Operation}
    (hcheck : op.path.check h.settings.maxNameLength = .ok ())
    (hformat : h.conn.format.isSupported = true) (hopen : h.isOpen = true)
    (hserver : Exchange.Consents h.conn) (hop : op.Encodable h.conn.format)
    (hafter : (h.after op).isOpen = true) :
    ∃ F : Frame h.conn.format, (h.after op).conn.line.written = h.conn.line.written ++ F.bytes ∧
      F.reading = .done (op.received h.conn.format) := by
  have hfits : ¬ op.Refused h.settings.maxNameLength :=
    not_or.mpr ⟨not_not_intro hcheck, not_not_intro hop.1⟩
  obtain ⟨F, hF⟩ := Frame.operation_begins hformat op hop.1
  obtain ⟨hbytes, hreading⟩ := hF.of_none hop.2
  refine ⟨F, ?_, hreading⟩
  rw [written_after hfits hopen hserver hafter, hbytes]

namespace Proxy

variable {settings : ClientSettings} {p q : Proxy} {first name : String} {rest : List String}

/-! ### Shared names -/

/-- A name that was indexed. -/
structure Indexed where
  name : String
  /-- The place of the name before it, which a global does not have. -/
  parent : Option Nat

/-- All that was indexed on a handle, newest first. Places count from the oldest. -/
abbrev Links := List Indexed

namespace Links

/-- The names from a place back to its global. -/
def lineage : Links → Nat → List String
  | [], _ => []
  | newest :: older, place =>
    if place = older.length then
      match newest.parent with
      | none => [newest.name]
      | some before => newest.name :: lineage older before
    else lineage older place

/-- The path at a place. -/
def path (links : Links) (place : Nat) : Path := pathOf (links.lineage place).reverse

/-- Indexes a name on the handle, or at a place. -/
def index (settings : ClientSettings) (links : Links) (parent : Option Nat) (name : String) :
    Except Error Links := do
  Path.checkSegment name settings.maxNameLength
  return ⟨name, parent⟩ :: links

/-- Indexes names one after another, the first one on the handle. -/
def chain (settings : ClientSettings) (links : Links) (first : String) (rest : List String) :
    Except Error Links := do
  rest.foldlM (fun links name => links.index settings (some (links.length - 1)) name)
    (← links.index settings none first)

/-- From one to the other by indexing names on the handle or at places that there are. -/
inductive Grows (settings : ClientSettings) (links : Links) : Links → Prop where
  | nothing : Grows settings links links
  | index {later last : Links} (before : Grows settings links later) (parent : Option Nat)
    (name : String) (exists_parent : ∀ place ∈ parent, place < later.length)
    (indexed : later.index settings parent name = .ok last) : Grows settings links last

variable {links later last : Links} {parent : Option Nat} {place : Nat}

/-- A link that was added is the latest one. -/
theorem index_eq_ok (h : links.index settings parent name = .ok later) :
    later = ⟨name, parent⟩ :: links := by
  unfold index at h
  cases hcheck : Path.checkSegment name settings.maxNameLength with
  | error e =>
    rw [hcheck] at h
    exact nomatch h
  | ok u =>
    rw [hcheck] at h
    cases h
    rfl

/-- A new name leaves what is found at the places before it. -/
theorem lineage_cons_of_lt (newest : Indexed) (h : place < links.length) :
    lineage (newest :: links) place = links.lineage place := by
  rw [lineage, if_neg (Nat.ne_of_lt h)]

/-- Chains that grow one after the other grow. -/
theorem Grows.trans (h : Grows settings links later) (h' : Grows settings later last) :
    Grows settings links last := by
  induction h' with
  | nothing => exact h
  | index before parent name exists_parent indexed ih =>
    exact .index ih parent name exists_parent indexed

/-- A chain that grows has no fewer links. -/
theorem Grows.length_le (h : Grows settings links later) : links.length ≤ later.length := by
  induction h with
  | nothing => exact Nat.le_refl _
  | index before parent name exists_parent indexed ih =>
    rw [index_eq_ok indexed, List.length_cons]
    exact Nat.le_succ_of_le ih

/-- Whatever is indexed later, the names at a place stay. -/
theorem Grows.lineage_eq (h : Grows settings links later) (hplace : place < links.length) :
    later.lineage place = links.lineage place := by
  induction h with
  | nothing => rfl
  | index before parent name exists_parent indexed ih =>
    rw [index_eq_ok indexed, lineage_cons_of_lt _ (Nat.lt_of_lt_of_le hplace before.length_le), ih]

/-- The newest of these is what the proxy is. -/
def Ends (links : Links) (p : Proxy) : Prop :=
  links ≠ [] ∧ links.lineage (links.length - 1) = p.names.reverse

/-- A chain that ends has a last link. -/
theorem Ends.last_lt (h : links.Ends p) : links.length - 1 < links.length :=
  Nat.sub_lt (List.length_pos_iff.mpr h.1) Nat.one_pos

/-- The path of the last link is the path of the proxy that the chain ends in. -/
theorem Ends.path_eq (h : links.Ends p) : links.path (links.length - 1) = p.path := by
  rw [path, h.2, List.reverse_reverse]
  rfl

/-- A global of the handle is a global among the names. -/
theorem exists_index_of_global (links : Links) (hp : global settings name = .ok p) :
    ∃ later, links.index settings none name = .ok later ∧ later.Ends p ∧
      Grows settings links later := by
  unfold global at hp
  cases hcheck : Path.checkSegment name settings.maxNameLength with
  | error e =>
    rw [hcheck] at hp
    exact nomatch hp
  | ok u =>
    rw [hcheck] at hp
    cases hp
    have hindex : links.index settings none name = .ok (⟨name, none⟩ :: links) := by
      rw [index, hcheck]
      rfl
    refine ⟨_, hindex, ⟨List.cons_ne_nil _ _, ?_⟩, .index .nothing none name nofun hindex⟩
    rw [List.length_cons, Nat.add_sub_cancel, lineage, if_pos rfl]
    rfl

/-- A member of a proxy is a member of its names. -/
theorem Ends.exists_index (h : links.Ends p) (hq : p.index settings name = .ok q) :
    ∃ later, links.index settings (some (links.length - 1)) name = .ok later ∧ later.Ends q ∧
      Grows settings links later := by
  unfold Proxy.index at hq
  cases hcheck : Path.checkSegment name settings.maxNameLength with
  | error e =>
    rw [hcheck] at hq
    exact nomatch hq
  | ok u =>
    rw [hcheck] at hq
    cases hq
    have hindex : links.index settings (some (links.length - 1)) name =
        .ok (⟨name, some (links.length - 1)⟩ :: links) := by
      rw [index, hcheck]
      rfl
    refine ⟨_, hindex, ⟨List.cons_ne_nil _ _, ?_⟩, .index .nothing _ name ?_ hindex⟩
    · rw [List.length_cons, Nat.add_sub_cancel, lineage, if_pos rfl]
      simp only [h.2, names, List.reverse_append, List.reverse_singleton, List.singleton_append]
    · intro place hplace
      rw [← Option.mem_some.mp hplace]
      exact h.last_lt

/-- A chain that is extended by names that a proxy takes ends in what the proxy becomes. -/
theorem Ends.exists_extend (h : links.Ends p)
    (hq : rest.foldlM (fun p name => p.index settings name) p = .ok q) :
    ∃ later, rest.foldlM
        (fun links name => links.index settings (some (links.length - 1)) name) links = .ok later ∧
      later.Ends q ∧ Grows settings links later := by
  induction rest generalizing p links with
  | nil =>
    cases hq
    exact ⟨links, rfl, h, .nothing⟩
  | cons name rest ih =>
    rw [List.foldlM_cons] at hq
    cases hindex : p.index settings name with
    | error e =>
      rw [hindex] at hq
      exact nomatch hq
    | ok next =>
      rw [hindex] at hq
      obtain ⟨middle, hmiddle, hends, hgrows⟩ := h.exists_index hindex
      obtain ⟨later, hlater, hlast, hrest⟩ := ih hends hq
      refine ⟨later, ?_, hlast, hgrows.trans hrest⟩
      rw [List.foldlM_cons, hmiddle]
      exact hlater

/-- A chain is built among any names that there are, and its proxy is the newest of them. -/
theorem exists_chain (links : Links) (hp : Proxy.chain settings first rest = .ok p) :
    ∃ later, links.chain settings first rest = .ok later ∧ later.Ends p ∧
      Grows settings links later := by
  unfold Proxy.chain at hp
  cases hglobal : global settings first with
  | error e =>
    rw [hglobal] at hp
    exact nomatch hp
  | ok start =>
    rw [hglobal] at hp
    obtain ⟨middle, hmiddle, hends, hgrows⟩ := exists_index_of_global links hglobal
    obtain ⟨later, hlater, hlast, hrest⟩ := hends.exists_extend hp
    refine ⟨later, ?_, hlast, hgrows.trans hrest⟩
    rw [chain, hmiddle]
    exact hlater

end Links

/-! ### Operations -/

/-- What can be done through a proxy. -/
inductive Use where
  | call (args : List Value)
  | get
  | set (key value : Value)

namespace Use

/-- What the caller gets. -/
def Result : Use → Type
  | .call _ => List Value
  | .get => Value
  | .set .. => Unit

/-- Does it. -/
def run (p : Proxy) : (u : Use) → Calling u.Result
  | .call args => p.call args
  | .get => p.get
  | .set key value => p.set key value

/-- The names that the request is about: a call that reads the parent leaves the last one out. -/
def names (p : Proxy) : Use → List String
  | .call _ => if p.ReadsParent then p.parents else p.names
  | .get | .set .. => p.names

/-- The operation that it amounts to. -/
def operation (p : Proxy) : Use → Operation
  | .call args => if p.ReadsParent then .get (pathOf p.parents) else .call p.path args
  | .get => .get p.path
  | .set key value => .set p.path key value

variable (u : Use) {h : Handle}

/-- A use is an operation at the path of its names. -/
theorem path_operation : (u.operation p).path = pathOf (u.names p) := by
  cases u with
  | call args =>
    rw [operation, names]
    split <;> rfl
  | get => rfl
  | set key value => rfl

/-- The names that a use asks for are names of its proxy. -/
theorem names_subset : u.names p ⊆ p.names := by
  cases u with
  | call args =>
    rw [names]
    split
    · exact List.subset_append_left _ _
    · exact List.Subset.refl _
  | get => exact List.Subset.refl _
  | set key value => exact List.Subset.refl _

/-- What is done through a proxy is done by one operation. -/
theorem run_eq_operate (p : Proxy) (h : Handle) :
    (u.run p h).2 = ((Deed.operate (u.operation p)).run h).2 ∧
      ∀ e, (u.run p h).1 = .error e ↔ ((Deed.operate (u.operation p)).run h).1 = .error e := by
  cases u with
  | call args =>
    rw [run, operation]
    by_cases hreads : p.ReadsParent
    · rw [call_of_readsParent hreads, if_pos hreads, Deed.run]
      cases hget : Handle.getPath (pathOf p.parents) h with
      | mk result later =>
        cases result with
        | ok v =>
          rw [bind_of_ok hget]
          exact ⟨rfl, fun e => iff_of_false nofun nofun⟩
        | error e =>
          rw [bind_of_error hget]
          refine ⟨rfl, fun e' => ⟨fun he => ?_, fun he => ?_⟩⟩
          · cases he
            rfl
          · cases he
            rfl
    · rw [call_of_not_readsParent hreads, if_neg hreads, Deed.run]
      exact ⟨rfl, fun e => Iff.rfl⟩
  | get => exact ⟨rfl, fun e => Iff.rfl⟩
  | set key value => exact ⟨rfl, fun e => Iff.rfl⟩

/-- Through a proxy whose names are short enough nothing fails with a long name. -/
theorem run_fails (hp : p.Short h.settings) :
    (∀ e, (u.run p h).1 = .error e → ¬ e.IsLongName) ∧
      ∀ e ∈ (u.run p h).2.reported, e ∈ h.reported ∨ ¬ e.IsLongName := by
  have hpath : (u.operation p).path.check h.settings.maxNameLength = .ok () := by
    rw [path_operation]
    exact check_pathOf fun name hname => hp name (u.names_subset hname)
  obtain ⟨hlater, herror⟩ := u.run_eq_operate p h
  obtain ⟨hresult, hreported⟩ := Handle.operate_fails (u.operation p) hpath
  rw [hlater]
  exact ⟨fun e he => hresult e ((herror e).mp he), hreported⟩

/-- What is sent through a proxy, if it can be sent, is the frame of its operation. -/
theorem exists_frame (hp : p.Short h.settings) (hformat : h.conn.format.isSupported = true)
    (hopen : h.isOpen = true) (hserver : Exchange.Consents h.conn)
    (hop : (u.operation p).Encodable h.conn.format) (hafter : (u.run p h).2.isOpen = true) :
    ∃ F : Frame h.conn.format,
      (u.run p h).2.conn.line.written = h.conn.line.written ++ F.bytes ∧
        F.reading = .done ((u.operation p).received h.conn.format) := by
  have hnames : (u.operation p).path.check h.settings.maxNameLength = .ok () := by
    rw [path_operation]
    exact check_pathOf fun name hname => hp name (u.names_subset hname)
  have hlater : (u.run p h).2 = h.after (u.operation p) := by
    rw [(u.run_eq_operate p h).1]
    cases u.operation p <;> rfl
  rw [hlater] at hafter ⊢
  exact Handle.exists_frame_after hnames hformat hopen hserver hop hafter

end Use

/-- What a proxy names is read back from its text. -/
theorem parse_text_pathOf (names : List String) : Path.parse (pathOf names).text = pathOf names :=
  Path.parse_text fun _ hname => Path.isName_of_mem_parse hname

/-- The operation of a proxy reaches a server with the path that it was sent with. -/
theorem Use.path_received (u : Use) (f : Format) :
    ((u.operation p).received f).path = (u.operation p).path := by
  have hparse : Path.parse (u.operation p).path.text = (u.operation p).path := by
    rw [path_operation]
    exact parse_text_pathOf _
  refine Eq.trans ?_ hparse
  cases u.operation p <;> rfl

/-- A chain of names that are short enough names, one after another, what each of them names: in its
path, which passes the check, so that nothing done through the proxy fails with a long name; in the
value that stands for it; and in every request that is sent through it, where a call that reads the
parent leaves the last name out. Building it does nothing on the handle, and no other name that is
indexed, on the handle or on any proxy, changes its path or that of another one. -/
theorem chain_names (h : Handle) (hp : chain h.settings first rest = .ok p) :
    (∀ name ∈ first :: rest, name.utf8ByteSize ≤ h.settings.maxNameLength) ∧
    p.path.segments = (first :: rest).flatMap (fun name => (Path.parse name).segments) ∧
    p.path.check h.settings.maxNameLength = .ok () ∧
    (∀ u : Use, (∀ e, (u.run p h).1 = .error e → ¬ e.IsLongName) ∧
      ∀ e ∈ (u.run p h).2.reported, e ∈ h.reported ∨ ¬ e.IsLongName) ∧
    (∀ links : Links, ∃ later, links.chain h.settings first rest = .ok later ∧
      later.path (later.length - 1) = p.path ∧ Links.Grows h.settings links later ∧
      ∀ last, Links.Grows h.settings later last →
        (∀ place < links.length, last.path place = links.path place) ∧
        ∀ place < later.length, last.path place = later.path place) ∧
    (∀ {α : Type} (act : Proxy → Calling α),
      (do act (← MonadExcept.ofExcept (chain (← MonadState.get).settings first rest)) :
        Calling α) h = act p h) ∧
    p.toValue = .remote p.path.text ∧ Path.parse p.path.text = p.path ∧
    ∀ u : Use, h.conn.format.isSupported = true → h.isOpen = true → Exchange.Consents h.conn →
      (u.operation p).Encodable h.conn.format → (u.run p h).2.isOpen = true →
      ∃ (F : Frame h.conn.format) (op : Operation),
        (u.run p h).2.conn.line.written = h.conn.line.written ++ F.bytes ∧
        F.reading = .done op ∧
        op.path.segments = (u.names p).flatMap (fun name => (Path.parse name).segments) := by
  obtain ⟨hnames, hshort⟩ := names_of_chain hp
  refine ⟨?_, ?_, check_pathOf hshort, fun u => u.run_fails hshort, fun links => ?_, fun act => ?_,
    rfl, parse_text_pathOf _, ?_⟩
  · rw [← hnames]
    exact hshort
  · rw [path, pathOf, Path.segments_parse_joined, hnames]
  · obtain ⟨later, hlater, hends, hgrows⟩ := links.exists_chain hp
    refine ⟨later, hlater, hends.path_eq, hgrows, fun last hlast => ⟨?_, ?_⟩⟩
    · intro place hplace
      rw [Links.path, Links.path, (hgrows.trans hlast).lineage_eq hplace]
    · intro place hplace
      rw [Links.path, Links.path, hlast.lineage_eq hplace]
  · rw [bind_of_ok get_run, hp]
    rfl
  · intro u hformat hopen hserver hop hafter
    obtain ⟨F, hwritten, hreading⟩ := u.exists_frame hshort hformat hopen hserver hop hafter
    refine ⟨F, _, hwritten, hreading, ?_⟩
    rw [u.path_received, u.path_operation, pathOf, Path.segments_parse_joined]

/-- Indexing `a.b`, nothing and `.c.` one after another names `a`, `b` and `c`, to this side and to
the server that is asked for it. -/
theorem chain_names_dotted :
    chain {} "a.b" ["", ".c."] = .ok ⟨["a.b", ""], ".c."⟩ ∧
    (path ⟨["a.b", ""], ".c."⟩).segments = ["a", "b", "c"] ∧
    ∃ (F : Frame .host) (op : Operation),
      (get ⟨["a.b", ""], ".c."⟩ (Handle.answered [0])).2.conn.line.written = F.bytes ∧
      F.reading = .done op ∧ op.path.segments = ["a", "b", "c"] := by
  have hp : chain (Handle.answered [0]).settings "a.b" ["", ".c."] =
      .ok ⟨["a.b", ""], ".c."⟩ := rfl
  have hparts : (["a.b", "", ".c."].flatMap fun name => (Path.parse name).segments) =
      ["a", "b", "c"] := by decide +kernel
  have hsent : (Operation.get (path ⟨["a.b", ""], ".c."⟩)).Encodable .host :=
    ⟨trivial, by decide +kernel⟩
  obtain ⟨-, hsegments, -, -, -, -, -, -, hrequest⟩ := chain_names (Handle.answered [0]) hp
  obtain ⟨F, op, hwritten, hreading, hpath⟩ :=
    hrequest .get (by decide) rfl (Handle.consents_answered [0]) hsent (by decide +kernel)
  exact ⟨hp, hsegments.trans hparts, F, op, hwritten, hreading, hpath.trans hparts⟩

end Proxy

end RemoteCall
