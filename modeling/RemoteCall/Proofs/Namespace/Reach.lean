import RemoteCall.Proofs.Namespace.Navigation
import RemoteCall.Proofs.Path

/-!
# Namespaces that can come about

A namespace grows by storing values and functions at dotted texts, and by the assignments and calls
that peers make. Peers store data only, at keys of any kind and as often as they like, but a pair
with a function below it was made by its owner: its key is a name that can stand between dots, and
no later pair has that key. Every operation keeps the tree like that, because each one acts on the
last pair with a name and puts new pairs at the end.
-/

namespace RemoteCall

namespace Entry

variable {φ : Type}

/-- There is a function in this node or below it. -/
inductive HasFunction : Entry φ → Prop where
  | function (f : φ) : HasFunction (.function f)
  | table {pairs : List (Value × Entry φ)} {pair : Value × Entry φ} (hmem : pair ∈ pairs)
      (h : pair.2.HasFunction) : HasFunction (.table pairs)

/-- The way to every function is clear: in every table, a pair with a function below it has a name
for its key, and no later pair has the same. -/
inductive Clear : Entry φ → Prop where
  | value (v : Value) : Clear (.value v)
  | function (f : φ) : Clear (.function f)
  | table {pairs : List (Value × Entry φ)} (children : ∀ pair ∈ pairs, pair.2.Clear)
      (named : ∀ pair ∈ pairs, pair.2.HasFunction → ∃ s, Path.IsName s ∧ pair.1 = .ofText s)
      (unshadowed : pairs.Pairwise fun pair later => pair.2.HasFunction → later.1 ≠ pair.1) :
      Clear (.table pairs)

variable {e new old child : Entry φ} {pairs part before after : List (Value × Entry φ)}
  {key k value : Value} {name : String} {names rest : List String}

/-! ### Tables -/

/-- The way is clear below every child. -/
theorem Clear.children (h : Clear (.table pairs)) : ∀ pair ∈ pairs, pair.2.Clear := by
  cases h with
  | table children named unshadowed => exact children

/-- Above a function every key is a name. -/
theorem Clear.named (h : Clear (.table pairs)) :
    ∀ pair ∈ pairs, pair.2.HasFunction → ∃ s, Path.IsName s ∧ pair.1 = .ofText s := by
  cases h with
  | table children named unshadowed => exact named

/-- A function is not hidden by a later pair. -/
theorem Clear.unshadowed (h : Clear (.table pairs)) :
    pairs.Pairwise fun pair later => pair.2.HasFunction → later.1 ≠ pair.1 := by
  cases h with
  | table children named unshadowed => exact unshadowed

/-- There is a function in a table exactly when there is one below a pair. -/
theorem hasFunction_table :
    (table pairs).HasFunction ↔ ∃ pair ∈ pairs, pair.2.HasFunction := by
  constructor
  · intro h
    cases h with
    | table hmem h => exact ⟨_, hmem, h⟩
  · rintro ⟨pair, hmem, h⟩
    exact .table hmem h

/-- The way through an empty table is clear. -/
theorem Clear.nil : Clear (.table [] : Entry φ) :=
  .table (fun _ h => absurd h List.not_mem_nil) (fun _ h => absurd h List.not_mem_nil) .nil

/-- Anything seen as a table is as clear as before. -/
theorem Clear.ofChildren (h : e.Clear) : Clear (.table e.children) := by
  cases e with
  | table pairs => exact h
  | value v => exact .nil
  | function f => exact .nil

/-- A node that becomes a table has no more functions than before. -/
theorem hasFunction_ofChildren (h : (table e.children).HasFunction) : e.HasFunction := by
  cases e with
  | table pairs => exact h
  | value v => simp [hasFunction_table, Entry.children] at h
  | function f => exact .function f

/-- Removing pairs keeps the way clear. -/
theorem Clear.sublist (h : Clear (.table pairs)) (hpart : part.Sublist pairs) :
    Clear (.table part) :=
  .table (fun pair hmem => h.children pair (hpart.subset hmem))
    (fun pair hmem => h.named pair (hpart.subset hmem)) (h.unshadowed.sublist hpart)

/-- A new pair at the end keeps the way clear if no function lies below an equal key. -/
theorem Clear.append (h : Clear (.table pairs)) (hnew : new.Clear)
    (hname : new.HasFunction → ∃ s, Path.IsName s ∧ key = .ofText s)
    (hkey : ∀ pair ∈ pairs, pair.2.HasFunction → key ≠ pair.1) :
    Clear (.table (pairs ++ [(key, new)])) := by
  refine .table ?_ ?_ ?_
  · intro pair hmem
    rcases List.mem_append.mp hmem with hmem | hmem
    · exact h.children pair hmem
    · rw [List.mem_singleton.mp hmem]
      exact hnew
  · intro pair hmem
    rcases List.mem_append.mp hmem with hmem | hmem
    · exact h.named pair hmem
    · rw [List.mem_singleton.mp hmem]
      exact hname
  · refine List.pairwise_append.mpr ⟨h.unshadowed, List.pairwise_singleton _ _, ?_⟩
    intro pair hmem later hlater
    rw [List.mem_singleton.mp hlater]
    exact hkey pair hmem

/-- Another node in the place of a pair keeps the way clear if the key is a name that does not come
again, or there is no function in the node. -/
theorem Clear.replace (h : Clear (.table (before ++ (key, old) :: after))) (hnew : new.Clear)
    (hname : new.HasFunction →
      (∃ s, Path.IsName s ∧ key = .ofText s) ∧ ∀ pair ∈ after, pair.1 ≠ key) :
    Clear (.table (before ++ (key, new) :: after)) := by
  obtain ⟨hbefore, hrest, hacross⟩ := List.pairwise_append.mp h.unshadowed
  obtain ⟨hold, hafter⟩ := List.pairwise_cons.mp hrest
  have hchildren := h.children
  have hnamed := h.named
  rw [List.forall_mem_append, List.forall_mem_cons] at hchildren hnamed
  refine .table ?_ ?_ ?_
  · rw [List.forall_mem_append, List.forall_mem_cons]
    exact ⟨hchildren.1, hnew, hchildren.2.2⟩
  · rw [List.forall_mem_append, List.forall_mem_cons]
    exact ⟨hnamed.1, fun hf => (hname hf).1, hnamed.2.2⟩
  · refine List.pairwise_append.mpr ⟨hbefore, List.pairwise_cons.mpr ⟨?_, hafter⟩, ?_⟩
    · exact fun later hlater hf => (hname hf).2 later hlater
    · intro pair hpair later hlater
      rcases List.mem_cons.mp hlater with rfl | hlater
      · exact hacross pair hpair (key, old) List.mem_cons_self
      · exact hacross pair hpair later (List.mem_cons_of_mem _ hlater)

/-! ### Data -/

mutual

/-- There is no function in data. -/
theorem not_hasFunction_ofValue : ∀ v, ¬ (ofValue v : Entry φ).HasFunction
  | .nil | .boolean _ | .number _ | .string _ | .blob _ | .remote _ => by
    intro h
    cases h
  | .table pairs => by
    rw [ofValue, hasFunction_table]
    rintro ⟨pair, hmem, h⟩
    exact not_hasFunction_ofPairs pairs pair hmem h

/-- There is no function in a table that a peer has sent. -/
theorem not_hasFunction_ofPairs :
    ∀ pairs, ∀ pair ∈ (ofPairs pairs : List (Value × Entry φ)), ¬ pair.2.HasFunction
  | [] => fun _ h => absurd h List.not_mem_nil
  | (k, v) :: rest => by
    rw [ofPairs, List.forall_mem_cons]
    exact ⟨not_hasFunction_ofValue v, not_hasFunction_ofPairs rest⟩

end

mutual

/-- In data there is no function whose way could be barred. -/
theorem clear_ofValue : ∀ v, (ofValue v : Entry φ).Clear
  | .nil => .value _
  | .boolean _ => .value _
  | .number _ => .value _
  | .string _ => .value _
  | .blob _ => .value _
  | .remote _ => .value _
  | .table pairs => by
    rw [ofValue]
    refine .table (clear_ofPairs pairs) (fun pair hmem hf => ?_) ?_
    · exact absurd hf (not_hasFunction_ofPairs pairs pair hmem)
    · refine List.pairwise_iff_forall_sublist.mpr fun hpart hf => ?_
      exact absurd hf (not_hasFunction_ofPairs pairs _ (hpart.subset List.mem_cons_self))

/-- The way is clear in a table that a peer has sent, for there is no function in it. -/
theorem clear_ofPairs : ∀ pairs, ∀ pair ∈ (ofPairs pairs : List (Value × Entry φ)), pair.2.Clear
  | [] => fun _ h => absurd h List.not_mem_nil
  | (k, v) :: rest => by
    rw [ofPairs, List.forall_mem_cons]
    exact ⟨clear_ofValue v, clear_ofPairs rest⟩

end

/-! ### Operations -/

/-- Behind the last pair with a name the name does not come again. -/
theorem ne_of_later (hlast : Pairs.LastAt (Value.isNamed name) pairs before key old after) :
    ∀ pair ∈ after, pair.1 ≠ key := by
  intro pair hmem hsame
  have hlater := hlast.later pair hmem
  rw [hsame, hlast.isChosen] at hlater
  cases hlater

/-- Storing under a key keeps the way clear, if the key is a name or there is no function in what is
stored. -/
theorem Clear.setPair (h : Clear (.table pairs)) (hnew : new.Clear)
    (hname : new.HasFunction → ∃ s, Path.IsName s ∧ key = .ofText s) :
    Clear (.table (setPair pairs key new)) := by
  obtain ⟨hnone, hset⟩ | ⟨before, k, old, after, hlast, hset⟩ := setPair_cases pairs key new
  · rw [hset]
    split
    · exact h
    · refine h.append hnew hname fun pair hmem hf hkey => ?_
      obtain ⟨s, -, hs⟩ := h.named pair hmem hf
      have hsame := hnone pair hmem
      rw [← hkey] at hs
      rw [← hkey, hs, Value.same_ofText, Value.isNamed_iff.mpr rfl] at hsame
      cases hsame
  · rw [hset]
    rw [hlast.split] at h
    split
    · exact h.sublist (List.sublist_cons_self _ _ |>.append_left _)
    · refine h.replace hnew fun hf => ?_
      obtain ⟨s, hs, rfl⟩ := hname hf
      have hchosen : (Value.ofText s).same = Value.isNamed s := funext (Value.same_ofText s)
      rw [hchosen] at hlast
      exact ⟨⟨s, hs, Value.isNamed_iff.mp hlast.isChosen⟩, ne_of_later hlast⟩

/-- Storing data brings no function. -/
theorem hasFunction_setPair (hnew : ¬ new.HasFunction)
    (h : (table (Entry.setPair pairs key new)).HasFunction) : (table pairs).HasFunction := by
  obtain ⟨pair, hmem, hf⟩ := hasFunction_table.mp h
  refine hasFunction_table.mpr ⟨pair, ?_, hf⟩
  have hpair : pair.2 ≠ new := by
    rintro rfl
    exact hnew hf
  obtain ⟨hnone, hset⟩ | ⟨before, k, old, after, hlast, hset⟩ := setPair_cases pairs key new
  · rw [hset] at hmem
    split at hmem
    · exact hmem
    · rcases List.mem_append.mp hmem with hmem | hmem
      · exact hmem
      · exact absurd (congrArg Prod.snd (List.mem_singleton.mp hmem)) hpair
  · rw [hset] at hmem
    rw [hlast.split]
    split at hmem
    · exact (List.sublist_cons_self _ _ |>.append_left _).subset hmem
    · rcases List.mem_append.mp hmem with hmem | hmem
      · exact List.mem_append_left _ hmem
      · rcases List.mem_cons.mp hmem with rfl | hmem
        · exact absurd rfl hpair
        · exact List.mem_append_right _ (List.mem_cons_of_mem _ hmem)

/-- A child of a clear node is clear. -/
theorem Clear.member? (h : e.Clear) (hmember : e.member? name = some child) : child.Clear := by
  obtain ⟨before, key, after, hlast⟩ := lastAt_of_member? hmember
  have hmem : (key, child) ∈ e.children := by
    rw [hlast.split]
    exact List.mem_append_right _ List.mem_cons_self
  exact h.ofChildren.children _ hmem

/-- What lies below a clear node is clear. -/
theorem Clear.descend? (h : e.Clear) (hdescend : Entry.descend? names e = some child) :
    child.Clear := by
  induction names generalizing e with
  | nil =>
    cases hdescend
    exact h
  | cons name names ih =>
    obtain ⟨next, hmember, hrest⟩ := Option.bind_eq_some_iff.mp hdescend
    exact ih (h.member? hmember) hrest

/-- Storing at the end of a list of names keeps the way clear. -/
theorem Clear.place (he : e.Clear) (hnew : new.Clear) (hnames : ∀ name ∈ names, Path.IsName name) :
    (place new names e).Clear := by
  induction names generalizing e with
  | nil => exact hnew
  | cons name rest ih =>
    obtain ⟨hname, hrest⟩ := List.forall_mem_cons.mp hnames
    cases rest with
    | nil => exact he.ofChildren.setPair hnew fun _ => ⟨name, hname, rfl⟩
    | cons next rest =>
      rw [place_cons_cons]
      cases hmember : e.member? name with
      | none =>
        have hnone : ∀ pair ∈ e.children, Value.isNamed name pair.1 = false := by
          obtain hnone | ⟨before, key, child, after, hlast⟩ :=
            Pairs.none_or_lastAt (Value.isNamed name) e.children
          · exact hnone
          · cases hmember.symm.trans hlast.findLast?
        have hchild := ih (e := .table []) .nil hrest
        simp only [Option.getD_none, Pairs.replaceLast?_of_none hnone]
        refine he.ofChildren.append hchild (fun _ => ⟨name, hname, rfl⟩) fun pair hmem _ hkey => ?_
        have hpair := hnone pair hmem
        rw [← hkey, Value.isNamed_iff.mpr rfl] at hpair
        cases hpair
      | some child =>
        obtain ⟨before, key, after, hlast⟩ := lastAt_of_member? hmember
        have hchild := ih (he.member? hmember) hrest
        have htable := he.ofChildren
        rw [hlast.split] at htable
        simp only [Option.getD_some, hlast.replaceLast?]
        exact htable.replace hchild fun _ =>
          ⟨⟨name, hname, Value.isNamed_iff.mp hlast.isChosen⟩, ne_of_later hlast⟩

/-- Exchanging a node for one that brings no function where none was keeps the way clear, and brings
none above either. -/
theorem Clear.exchange (he : e.Clear) (hnew : new.Clear)
    (hold : Entry.descend? names e = some old)
    (hfunction : new.HasFunction → old.HasFunction) :
    (exchange new names e).Clear ∧ ((exchange new names e).HasFunction → e.HasFunction) := by
  induction names generalizing e with
  | nil =>
    cases hold
    exact ⟨hnew, hfunction⟩
  | cons name rest ih =>
    obtain ⟨child, hmember, hrest⟩ := Option.bind_eq_some_iff.mp hold
    obtain ⟨before, key, after, hlast⟩ := lastAt_of_member? hmember
    obtain ⟨hclear, hbelow⟩ := ih (he.member? hmember) hrest
    have htable := he.ofChildren
    have hmem : (key, child) ∈ e.children := by
      rw [hlast.split]
      exact List.mem_append_right _ List.mem_cons_self
    rw [exchange_cons hlast]
    constructor
    · have hnamed := htable.named _ hmem
      rw [hlast.split] at htable
      exact htable.replace hclear fun hf => ⟨hnamed (hbelow hf), ne_of_later hlast⟩
    · intro hf
      refine hasFunction_ofChildren (hasFunction_table.mpr ?_)
      obtain ⟨pair, hpair, hf⟩ := hasFunction_table.mp hf
      rw [List.mem_append, List.mem_cons] at hpair
      rcases hpair with hpair | rfl | hpair
      · exact ⟨pair, by rw [hlast.split]; exact List.mem_append_left _ hpair, hf⟩
      · exact ⟨(key, child), hmem, hbelow hf⟩
      · refine ⟨pair, ?_, hf⟩
        rw [hlast.split]
        exact List.mem_append_right _ (List.mem_cons_of_mem _ hpair)

end Entry

namespace Namespace

variable {φ : Type} {ns : Namespace φ} {p : Path} {e new old : Entry φ} {name : String}

/-- Every name has one place, and the way to every function is clear from there. -/
structure Clear (ns : Namespace φ) : Prop where
  sorted : ns.globals.Pairwise fun pair later => pair.1 < later.1
  below : ∀ pair ∈ ns.globals, pair.2.Clear
  named : ∀ pair ∈ ns.globals, pair.2.HasFunction → Path.IsName pair.1

/-- The way is clear in the empty namespace. -/
theorem Clear.empty : (empty : Namespace φ).Clear :=
  ⟨.nil, fun _ h => absurd h List.not_mem_nil, fun _ h => absurd h List.not_mem_nil⟩

/-- What a name leads to is one of the pairs. -/
theorem mem_of_global? (h : ns.global? name = some e) : (name, e) ∈ ns.globals := by
  obtain ⟨pair, hfind, rfl⟩ := Option.map_eq_some_iff.mp h
  have hname : pair.1 = name := by simpa using List.find?_some hfind
  rw [← hname]
  exact List.mem_of_find?_eq_some hfind

/-- A pair of a list sorted by name is the new one or an old one. -/
theorem mem_insertSorted {pairs : List (String × Entry φ)} {pair : String × Entry φ}
    (h : pair ∈ Pairs.insertSorted name e pairs) : pair = (name, e) ∨ pair ∈ pairs := by
  induction pairs with
  | nil => exact .inl (List.mem_singleton.mp h)
  | cons first pairs ih =>
    obtain ⟨n, entry⟩ := first
    rw [Pairs.insertSorted] at h
    split at h
    · exact (List.mem_cons.mp h).imp_right (List.mem_cons_of_mem _)
    · split at h
      · exact List.mem_cons.mp h
      · rcases List.mem_cons.mp h with rfl | h
        · exact .inr List.mem_cons_self
        · exact (ih h).imp_right (List.mem_cons_of_mem _)

/-- A list sorted by name stays sorted. -/
theorem pairwise_insertSorted {pairs : List (String × Entry φ)} (name : String) (e : Entry φ)
    (h : pairs.Pairwise fun pair later => pair.1 < later.1) :
    (Pairs.insertSorted name e pairs).Pairwise fun pair later => pair.1 < later.1 := by
  induction pairs with
  | nil => exact List.pairwise_singleton _ _
  | cons first pairs ih =>
    obtain ⟨n, entry⟩ := first
    obtain ⟨hfirst, hpairs⟩ := List.pairwise_cons.mp h
    rw [Pairs.insertSorted]
    split
    · rename_i hname
      subst hname
      exact List.pairwise_cons.mpr ⟨hfirst, hpairs⟩
    · rename_i hne
      split
      · rename_i hlt
        refine List.pairwise_cons.mpr ⟨?_, h⟩
        intro later hlater
        rcases List.mem_cons.mp hlater with rfl | hlater
        · exact hlt
        · exact String.lt_trans hlt (hfirst later hlater)
      · rename_i hge
        have hlt : n < name :=
          Std.lt_of_le_of_ne (String.not_lt.mp hge) hne
        refine List.pairwise_cons.mpr ⟨?_, ih hpairs⟩
        intro later hlater
        rcases mem_insertSorted hlater with rfl | hlater
        · exact hlt
        · exact hfirst later hlater

/-- Putting a clear node under a name keeps the way clear, if the name can stand between dots or
there is no function in the node. -/
theorem Clear.setGlobal (h : ns.Clear) (he : e.Clear) (hname : e.HasFunction → Path.IsName name) :
    (ns.setGlobal name e).Clear := by
  refine ⟨pairwise_insertSorted name e h.sorted, ?_, ?_⟩
  · intro pair hmem
    rcases mem_insertSorted hmem with rfl | hmem
    · exact he
    · exact h.below pair hmem
  · intro pair hmem
    rcases mem_insertSorted hmem with rfl | hmem
    · exact hname
    · exact h.named pair hmem

/-- The way stays clear when a name is erased. -/
theorem Clear.eraseGlobal (h : ns.Clear) (name : String) : (ns.eraseGlobal name).Clear :=
  ⟨h.sorted.filter _, fun pair hmem => h.below pair (List.mem_filter.mp hmem).1,
    fun pair hmem => h.named pair (List.mem_filter.mp hmem).1⟩

/-- What stands under a name is clear. -/
theorem Clear.global? (h : ns.Clear) (hglobal : ns.global? name = some e) : e.Clear :=
  h.below _ (mem_of_global? hglobal)

/-- What a path leads to is clear. -/
theorem Clear.lookup? (h : ns.Clear) (hlookup : ns.lookup? p = some e) : e.Clear := by
  obtain ⟨segments⟩ := p
  cases segments with
  | nil => cases hlookup
  | cons first rest =>
    obtain ⟨top, htop, hrest⟩ := Option.bind_eq_some_iff.mp hlookup
    exact (h.global? htop).descend? hrest

/-- Storing at a path of names keeps the way clear. -/
theorem Clear.place (h : ns.Clear) (hnew : new.Clear)
    (hnames : ∀ name ∈ p.segments, Path.IsName name) : (ns.place p new).Clear := by
  obtain ⟨segments⟩ := p
  cases segments with
  | nil => exact h
  | cons first rest =>
    obtain ⟨hfirst, hrest⟩ := List.forall_mem_cons.mp hnames
    have htop : ((ns.global? first).getD (.table [])).Clear := by
      cases hglobal : ns.global? first with
      | none => exact .nil
      | some e => exact h.global? hglobal
    exact h.setGlobal (htop.place hnew hrest) fun _ => hfirst

/-- Exchanging a node for one that brings no function where none was keeps the way clear. -/
theorem Clear.exchange (h : ns.Clear) (hnew : new.Clear) (hold : ns.lookup? p = some old)
    (hfunction : new.HasFunction → old.HasFunction) : (ns.exchange p new).Clear := by
  obtain ⟨segments⟩ := p
  cases segments with
  | nil => exact h
  | cons first rest =>
    obtain ⟨e, he, hrest⟩ := Option.bind_eq_some_iff.mp hold
    obtain ⟨hclear, habove⟩ := (h.global? he).exchange hnew hrest hfunction
    simp only [Namespace.exchange, he]
    exact h.setGlobal hclear fun hf => h.named _ (mem_of_global? he) (habove hf)

/-- An assignment keeps the way clear: it stores data. -/
theorem Clear.assign (h : ns.Clear) (p : Path) (key value : Value) :
    (ns.assign p key value).2.Clear := by
  have hdata : (Entry.ofValue value : Entry φ).Clear := Entry.clear_ofValue value
  have hplain : ¬ (Entry.ofValue value : Entry φ).HasFunction := Entry.not_hasFunction_ofValue value
  rw [Namespace.assign]
  split
  · split
    · exact h
    · dsimp only
      split
      · exact h.eraseGlobal _
      · exact h.setGlobal hdata fun hf => absurd hf hplain
  · split
    · rename_i pairs hlookup
      have htable := h.lookup? hlookup
      exact h.exchange (htable.setPair hdata fun hf => absurd hf hplain) hlookup
        (Entry.hasFunction_setPair hplain)
    · exact h
    · exact h

/-- A call keeps the way clear: the function stands where it stood. -/
theorem Clear.invoke [Callable φ] (h : ns.Clear) (p : Path) (args : List Value) :
    (ns.invoke p args).2.Clear := by
  rw [Namespace.invoke]
  split
  · rename_i f hlookup
    exact h.exchange (.function _) hlookup fun _ => .function f
  · exact h

/-- What owner and peers can make of the empty namespace. -/
inductive Reachable [Callable φ] : Namespace φ → Prop where
  | empty : Reachable empty
  | insert {ns : Namespace φ} (h : Reachable ns) (text : String) (v : Value) :
      Reachable (ns.insert text v)
  | register {ns : Namespace φ} (h : Reachable ns) (text : String) (f : φ) :
      Reachable (ns.register text f)
  | assign {ns : Namespace φ} (h : Reachable ns) (p : Path) (key value : Value) :
      Reachable (ns.assign p key value).2
  | invoke {ns : Namespace φ} (h : Reachable ns) (p : Path) (args : List Value) :
      Reachable (ns.invoke p args).2

/-- In every namespace that can come about, the way to every function is clear. -/
theorem Reachable.clear [Callable φ] (h : ns.Reachable) : ns.Clear := by
  induction h with
  | empty => exact .empty
  | insert _ text v ih => exact ih.place (Entry.clear_ofValue v) fun _ => Path.isName_of_mem_parse
  | register _ text f ih => exact ih.place (.function f) fun _ => Path.isName_of_mem_parse
  | assign _ p key value ih => exact ih.assign p key value
  | invoke _ p args ih => exact ih.invoke p args

end Namespace

end RemoteCall
