import RemoteCall.Namespace.Stock
import RemoteCall.Proofs.Namespace.Reach

/-!
# Snapshots

What a path leads to is read as one value, and the names of a longer path can be looked up in the
namespace or in this value. Both ways lead to the same place: a table of the tree is a table of the
value, pair by pair, and no node of the tree keeps a table as data, so that nothing can be looked up
in the value that the tree would not find. A function appears as the text of its path in either,
since the text of a path grows by a dot and a name as the path grows by the name.
-/

namespace RemoteCall

/-- The value below this one at the end of a list of names, looked up one by one. -/
def Value.descend? : List String → Value → Option Value
  | [], v => some v
  | name :: rest, v => (v.get? name).bind (descend? rest)

/-- A list of names leads nowhere from the first name on that is not found. -/
theorem Value.descend?_eq_none_iff {names : List String} {v : Value} :
    v.descend? names = none ↔ ∃ before name after w, names = before ++ name :: after ∧
      v.descend? before = some w ∧ w.get? name = none := by
  induction names generalizing v with
  | nil => simp [descend?]
  | cons first rest ih =>
    constructor
    · intro hnone
      cases hfirst : v.get? first with
      | none => exact ⟨[], first, rest, v, rfl, rfl, hfirst⟩
      | some child =>
        rw [descend?, hfirst, Option.bind_some] at hnone
        obtain ⟨before, name, after, w, rfl, hbefore, hname⟩ := ih.mp hnone
        refine ⟨first :: before, name, after, w, rfl, ?_, hname⟩
        rw [descend?, hfirst, Option.bind_some, hbefore]
    · rintro ⟨before, name, after, w, hsplit, hbefore, hname⟩
      cases before with
      | nil =>
        cases hbefore
        obtain ⟨rfl, -⟩ := List.cons.inj hsplit
        rw [descend?, hname, Option.bind_none]
      | cons _ before =>
        obtain ⟨rfl, hrest⟩ := List.cons.inj hsplit
        obtain ⟨child, hchild, hdescend⟩ := Option.bind_eq_some_iff.mp hbefore
        rw [descend?, hchild, Option.bind_some]
        exact ih.mpr ⟨before, name, after, w, hrest, hdescend, hname⟩

namespace Entry

variable {φ : Type}

/-- No node below this one, itself included, keeps a table as data: tables are inner nodes. -/
inductive Plain : Entry φ → Prop where
  | value {v : Value} (hv : ∀ pairs, v ≠ .table pairs) : Plain (.value v)
  | function (f : φ) : Plain (.function f)
  | table {pairs : List (Value × Entry φ)} (children : ∀ pair ∈ pairs, pair.2.Plain) :
      Plain (.table pairs)

variable {e new child : Entry φ} {pairs : List (Value × Entry φ)} {name : String}
  {names : List String}

/-- What stands in a plain node is plain. -/
theorem Plain.children (h : e.Plain) : ∀ pair ∈ e.children, pair.2.Plain := by
  cases h with
  | value => exact fun _ hmem => absurd hmem List.not_mem_nil
  | function => exact fun _ hmem => absurd hmem List.not_mem_nil
  | table children => exact children

/-- An empty table is plain. -/
theorem Plain.nil : Plain (.table [] : Entry φ) :=
  .table fun _ hmem => absurd hmem List.not_mem_nil

mutual

/-- Data is taken apart into plain nodes. -/
theorem plain_ofValue : ∀ v, (ofValue v : Entry φ).Plain
  | .nil | .boolean _ | .number _ | .string _ | .blob _ | .remote _ =>
    .value fun _ htable => by cases htable
  | .table pairs => by
    rw [ofValue]
    exact .table (plain_ofPairs pairs)

/-- A table that a peer has sent becomes plain, for its tables become inner nodes. -/
theorem plain_ofPairs : ∀ pairs, ∀ pair ∈ (ofPairs pairs : List (Value × Entry φ)), pair.2.Plain
  | [] => fun _ hmem => absurd hmem List.not_mem_nil
  | (k, v) :: rest => by
    rw [ofPairs, List.forall_mem_cons]
    exact ⟨plain_ofValue v, plain_ofPairs rest⟩

end

/-! ### Operations -/

/-- Storing a plain node among plain ones leaves them all plain. -/
theorem Plain.setPair (h : ∀ pair ∈ pairs, pair.2.Plain) (hnew : new.Plain) (key : Value) :
    ∀ pair ∈ setPair pairs key new, pair.2.Plain := by
  obtain ⟨-, hset⟩ | ⟨before, k, old, after, hlast, hset⟩ := setPair_cases pairs key new
  · rw [hset]
    split
    · exact h
    · exact List.forall_mem_append.mpr ⟨h, List.forall_mem_singleton.mpr hnew⟩
  · rw [hlast.split, List.forall_mem_append, List.forall_mem_cons] at h
    obtain ⟨hbefore, -, hafter⟩ := h
    rw [hset]
    split
    · exact List.forall_mem_append.mpr ⟨hbefore, hafter⟩
    · exact List.forall_mem_append.mpr ⟨hbefore, List.forall_mem_cons.mpr ⟨hnew, hafter⟩⟩

/-- Another node in the place of the last one with a name, or at the end, leaves them all plain. -/
theorem Plain.replaceLast? (h : ∀ pair ∈ pairs, pair.2.Plain) (hnew : new.Plain)
    {others : List (Value × Entry φ)} (hothers : ∀ pair ∈ others, pair.2.Plain) :
    ∀ pair ∈ (Pairs.replaceLast? (Value.isNamed name) new pairs).getD others, pair.2.Plain := by
  obtain hnone | ⟨before, key, old, after, hlast⟩ :=
    Pairs.none_or_lastAt (Value.isNamed name) pairs
  · rw [Pairs.replaceLast?_of_none hnone]
    exact hothers
  · rw [hlast.split, List.forall_mem_append, List.forall_mem_cons] at h
    obtain ⟨hbefore, -, hafter⟩ := h
    rw [hlast.replaceLast?]
    exact List.forall_mem_append.mpr ⟨hbefore, List.forall_mem_cons.mpr ⟨hnew, hafter⟩⟩

/-- A child of a plain node is plain. -/
theorem Plain.member? (h : e.Plain) (hmember : e.member? name = some child) : child.Plain := by
  obtain ⟨before, key, after, hlast⟩ := lastAt_of_member? hmember
  have hmem : (key, child) ∈ e.children := by
    rw [hlast.split]
    exact List.mem_append_right _ List.mem_cons_self
  exact h.children _ hmem

/-- What lies below a plain node is plain. -/
theorem Plain.descend? (h : e.Plain) (hdescend : Entry.descend? names e = some child) :
    child.Plain := by
  induction names generalizing e with
  | nil =>
    cases hdescend
    exact h
  | cons name names ih =>
    obtain ⟨next, hmember, hrest⟩ := Option.bind_eq_some_iff.mp hdescend
    exact ih (h.member? hmember) hrest

/-- Storing a plain node at the end of a list of names leaves the tree plain. -/
theorem Plain.place (h : e.Plain) (hnew : new.Plain) (names : List String) :
    (place new names e).Plain := by
  induction names generalizing e with
  | nil => exact hnew
  | cons name rest ih =>
    cases rest with
    | nil => exact .table (setPair h.children hnew _)
    | cons next rest =>
      have hold : ((e.member? name).getD (.table [])).Plain := by
        cases hmember : e.member? name with
        | none => exact .nil
        | some child => exact h.member? hmember
      have hchild := ih hold
      rw [place_cons_cons]
      exact .table (replaceLast? h.children hchild
        (List.forall_mem_append.mpr ⟨h.children, List.forall_mem_singleton.mpr hchild⟩))

/-- Exchanging a node for a plain one leaves the tree plain. -/
theorem Plain.exchange (h : e.Plain) (hnew : new.Plain) (names : List String) :
    (exchange new names e).Plain := by
  induction names generalizing e with
  | nil => exact hnew
  | cons name rest ih =>
    rw [Entry.exchange]
    cases hmember : e.member? name with
    | none => exact h
    | some child => exact .table (replaceLast? h.children (ih (h.member? hmember)) h.children)

/-! ### Looking up -/

/-- The last pair with a name in the snapshot of a table is the snapshot of the last child with this
name. -/
theorem findLast?_snapshotPairs (path name : String) (pairs : List (Value × Entry φ)) :
    Pairs.findLast? (Value.isNamed name) (snapshotPairs path pairs) =
      (Pairs.findLast? (Value.isNamed name) pairs).map (snapshot (path ++ "." ++ name)) := by
  induction pairs with
  | nil => rfl
  | cons pair rest ih =>
    obtain ⟨key, e⟩ := pair
    rw [snapshotPairs, Pairs.findLast?, Pairs.findLast?, ih, Option.map_or]
    cases hnamed : Value.isNamed name key with
    | false => rfl
    | true =>
      rw [Value.isNamed_iff.mp hnamed, Value.text?_ofText]
      rfl

/-- Looking up a name in the snapshot of a plain node gives the snapshot of the child. -/
theorem Plain.get?_snapshot (h : e.Plain) (path name : String) :
    (e.snapshot path).get? name = (e.member? name).map (snapshot (path ++ "." ++ name)) := by
  cases h with
  | @value v hv =>
    cases v with
    | table pairs => exact absurd rfl (hv pairs)
    | _ => rfl
  | function => rfl
  | table children => exact findLast?_snapshotPairs path name _

/-- Looking up names in the snapshot of a plain node gives the snapshot of what lies at their
end. -/
theorem Plain.descend?_snapshot (h : e.Plain) (path : String) (names : List String) :
    (e.snapshot path).descend? names = (Entry.descend? names e).map
      (snapshot (names.foldl (fun text name => text ++ "." ++ name) path)) := by
  induction names generalizing e path with
  | nil => rfl
  | cons name names ih =>
    rw [Value.descend?, Entry.descend?, h.get?_snapshot]
    cases hmember : e.member? name with
    | none => rfl
    | some child => exact ih (h.member? hmember) _

end Entry

namespace Namespace

variable {φ : Type} {ns : Namespace φ} {p : Path} {e new : Entry φ} {name : String}

/-- No node keeps a table as data. -/
def Plain (ns : Namespace φ) : Prop := ∀ pair ∈ ns.globals, pair.2.Plain

/-- What stands under a name is plain. -/
theorem Plain.global? (h : ns.Plain) (hglobal : ns.global? name = some e) : e.Plain :=
  h _ (mem_of_global? hglobal)

/-- What a path leads to is plain. -/
theorem Plain.lookup? (h : ns.Plain) (hlookup : ns.lookup? p = some e) : e.Plain := by
  obtain ⟨segments⟩ := p
  cases segments with
  | nil => cases hlookup
  | cons first rest =>
    obtain ⟨top, htop, hrest⟩ := Option.bind_eq_some_iff.mp hlookup
    exact (h.global? htop).descend? hrest

/-- A namespace stays plain when something plain is put under a name. -/
theorem Plain.setGlobal (h : ns.Plain) (hnew : e.Plain) (name : String) :
    (ns.setGlobal name e).Plain := by
  intro pair hmem
  rcases mem_insertSorted hmem with rfl | hmem
  · exact hnew
  · exact h pair hmem

/-- A namespace stays plain when something plain is placed. -/
theorem Plain.place (h : ns.Plain) (hnew : new.Plain) (p : Path) : (ns.place p new).Plain := by
  obtain ⟨segments⟩ := p
  cases segments with
  | nil => exact h
  | cons first rest =>
    have htop : ((ns.global? first).getD (.table [])).Plain := by
      cases hglobal : ns.global? first with
      | none => exact .nil
      | some top => exact h.global? hglobal
    exact h.setGlobal (htop.place hnew rest) first

/-- A namespace stays plain when a node is exchanged for a plain one. -/
theorem Plain.exchange (h : ns.Plain) (hnew : new.Plain) (p : Path) :
    (ns.exchange p new).Plain := by
  obtain ⟨segments⟩ := p
  cases segments with
  | nil => exact h
  | cons first rest =>
    cases hglobal : ns.global? first with
    | none =>
      simp only [Namespace.exchange, hglobal]
      exact h
    | some top =>
      simp only [Namespace.exchange, hglobal]
      exact h.setGlobal ((h.global? hglobal).exchange hnew rest) first

/-- A namespace stays plain whatever is assigned. -/
theorem Plain.assign (h : ns.Plain) (p : Path) (key value : Value) :
    (ns.assign p key value).2.Plain := by
  have hdata : (Entry.ofValue value : Entry φ).Plain := Entry.plain_ofValue value
  rw [Namespace.assign]
  split
  · split
    · exact h
    · dsimp only
      split
      · exact fun pair hmem => h pair (List.mem_filter.mp hmem).1
      · exact h.setGlobal hdata _
  · split
    · rename_i pairs hlookup
      exact h.exchange (.table (.setPair (h.lookup? hlookup).children hdata key)) p
    · exact h
    · exact h

/-- A namespace stays plain whatever is called. -/
theorem Plain.invoke [Callable φ] (h : ns.Plain) (p : Path) (args : List Value) :
    (ns.invoke p args).2.Plain := by
  rw [Namespace.invoke]
  split
  · exact h.exchange (.function _) p
  · exact h

/-- In no namespace that can come about does a node keep a table as data. -/
theorem Reachable.plain [Callable φ] (h : ns.Reachable) : ns.Plain := by
  induction h with
  | empty => exact fun _ hmem => absurd hmem List.not_mem_nil
  | insert _ text v ih => exact ih.place (Entry.plain_ofValue v) _
  | register _ text f ih => exact ih.place (.function f) _
  | assign _ p key value ih => exact ih.assign p key value
  | invoke _ p args ih => exact ih.invoke p args

/-- Something lives at no path but a path of names. -/
theorem segments_ne_nil_of_lookup? (h : ns.lookup? p = some e) : p.segments ≠ [] := by
  intro hroot
  rw [lookup?, hroot] at h
  cases h

/-- In a namespace that can come about, a value that was read at a path can be navigated in place of
the tree. A longer path leads to the value that looking up its further names one by one finds, and
where a name is not found it leads nowhere, which the names tell exactly. A function at the end of
them is the same reference in the value as at the path. -/
theorem resolve_append_iff_descend [Callable φ] (h : ns.Reachable) (p : Path) (v : Value)
    (hread : ns.resolve p = .ok v) (names : List String) :
    (∀ w, ns.resolve ⟨p.segments ++ names⟩ = .ok w ↔ v.descend? names = some w) ∧
    (ns.resolve ⟨p.segments ++ names⟩ = .error (.ofMissing ⟨p.segments ++ names⟩) ↔
      ∃ before name after w, names = before ++ name :: after ∧ v.descend? before = some w ∧
        w.get? name = none) ∧
    ∀ f, ns.lookup? ⟨p.segments ++ names⟩ = some (.function f) →
      v.descend? names = some (.remote (Path.text ⟨p.segments ++ names⟩)) := by
  rw [resolve] at hread
  cases hlookup : ns.lookup? p with
  | none =>
    rw [hlookup] at hread
    cases hread
  | some e =>
    rw [hlookup] at hread
    cases hread
    have hdescend : (e.snapshot p.text).descend? names = (ns.lookup? ⟨p.segments ++ names⟩).map
        (Entry.snapshot (Path.text ⟨p.segments ++ names⟩)) := by
      rw [(h.plain.lookup? hlookup).descend?_snapshot, lookup?_append hlookup,
        ← Path.foldl_text (segments_ne_nil_of_lookup? hlookup)]
    rw [resolve, ← Value.descend?_eq_none_iff, hdescend]
    cases ns.lookup? ⟨p.segments ++ names⟩ with
    | none => simp
    | some below => simp +contextual [Entry.snapshot]

/-- A peer has stored a table with one name twice and a key that is no text between, and a function
was put into the table under the name. -/
def nested : Namespace Stock :=
  (empty.assign .root (.ofText "t") (.table [(.ofText "u", .boolean true), (.boolean true, .nil),
    (.ofText "u", .table [(.ofText "k", .nil)])])).2 |>.register "t.u.f" .echo

/-- The function is the same reference in the value of the outer table as at its own path, and a
name of no pair is missing in both. -/
theorem resolve_append_iff_descend_nested :
    ∃ v, nested.resolve ⟨["t"]⟩ = .ok v ∧
      v.descend? ["u", "f"] = some (.remote "t.u.f") ∧
      nested.resolve ⟨["t", "u", "f"]⟩ = .ok (.remote "t.u.f") ∧
      nested.resolve ⟨["t", "u", "x"]⟩ = .error (.ofMissing ⟨["t", "u", "x"]⟩) := by
  have hreachable : nested.Reachable := .register (.assign .empty _ _ _) _ _
  have hread : ∃ v, nested.resolve ⟨["t"]⟩ = .ok v := ⟨_, rfl⟩
  obtain ⟨v, hread⟩ := hread
  have hfunction := resolve_append_iff_descend hreachable _ v hread ["u", "f"]
  have hmissing := resolve_append_iff_descend hreachable _ v hread ["u", "x"]
  have hv := (Except.ok.inj hread).symm
  subst hv
  exact ⟨_, hread, hfunction.2.2 _ rfl, (hfunction.1 _).mpr rfl,
    hmissing.2.1.mpr ⟨["u"], "x", [], _, rfl, rfl, rfl⟩⟩

end Namespace

end RemoteCall
