import RemoteCall.Namespace.Basic
import RemoteCall.Proofs.Value.Pairs

/-!
# Finding one's way in a namespace

What a path leads to after one node was changed: at the changed place the new node, below it what
the new node has there, and on every path that parts from the way to it what was there before. Each
fact is stated for one level of the tree, where it is about the last pair with a name, and then for
lists of names by induction.
-/

namespace RemoteCall

namespace Entry

variable {φ : Type} {e new child old : Entry φ} {pairs before after : List (Value × Entry φ)}
  {key : Value} {name other : String} {names rest more : List String}

mutual

/-- Data reads back as it was stored, whatever path it is seen at. -/
@[simp] theorem snapshot_ofValue (path : String) : ∀ v, (ofValue v : Entry φ).snapshot path = v
  | .nil | .boolean _ | .number _ | .string _ | .blob _ | .remote _ => rfl
  | .table pairs => by rw [ofValue, snapshot, snapshotPairs_ofPairs path pairs]

/-- The pairs of a table read back in their order, with all keys. -/
theorem snapshotPairs_ofPairs (path : String) :
    ∀ pairs, snapshotPairs path (ofPairs pairs : List (Value × Entry φ)) = pairs
  | [] => rfl
  | (k, v) :: rest => by
    have hplain : (ofValue v : Entry φ).isFunction = false := by cases v <;> rfl
    rw [ofPairs, snapshotPairs, snapshotPairs_ofPairs path rest, hplain]
    cases k.text? with
    | none => simp only [Bool.false_eq_true, if_false, snapshot_ofValue path v]
    | some name => simp only [snapshot_ofValue _ v]

end

/-- Only nil removes what was there. -/
theorem isNil_ofValue {v : Value} : (ofValue v : Entry φ).isNil = true ↔ v = .nil := by
  cases v <;> simp [ofValue, isNil]

/-- A node that keeps a value other than nil is not nil. -/
theorem isNil_ofValue_of_ne {v : Value} (hv : v ≠ .nil) : (ofValue v : Entry φ).isNil = false :=
  Bool.eq_false_iff.mpr fun hnil => hv (isNil_ofValue.mp hnil)

/-! ### One level -/

/-- A child is the last one with its name. -/
theorem lastAt_of_member? (h : e.member? name = some child) :
    ∃ before key after,
      Pairs.LastAt (Value.isNamed name) e.children before key child after :=
  Pairs.lastAt_of_findLast? h

/-- Only tables have children. -/
theorem eq_table_of_member? (h : e.member? name = some child) : e = .table e.children := by
  cases e with
  | table pairs => rfl
  | value v => cases h
  | function f => cases h

/-- Storing under a key either acts on the last pair with an equal key, or there is none and the new
pair goes to the end. -/
theorem setPair_cases (pairs : List (Value × Entry φ)) (key : Value) (new : Entry φ) :
    ((∀ pair ∈ pairs, key.same pair.1 = false) ∧
      setPair pairs key new = if new.isNil then pairs else pairs ++ [(key, new)]) ∨
    ∃ before k old after, Pairs.LastAt key.same pairs before k old after ∧
      setPair pairs key new =
        if new.isNil then before ++ after else before ++ (k, new) :: after := by
  obtain hnone | ⟨before, k, old, after, hlast⟩ := Pairs.none_or_lastAt key.same pairs
  · left
    refine ⟨hnone, ?_⟩
    rw [setPair, Pairs.eraseLast?_of_none hnone, Pairs.replaceLast?_of_none hnone]
    rfl
  · right
    refine ⟨before, k, old, after, hlast, ?_⟩
    rw [setPair, hlast.eraseLast?, hlast.replaceLast?]
    rfl

/-- What is stored under a name is the child with this name. -/
theorem member?_setPair_self (hkey : key.text? = some name) (hnew : new.isNil = false) :
    (table (setPair pairs key new)).member? name = some new := by
  have hname : Value.isNamed name key = true := Value.isNamed_iff.mpr (Value.text?_eq_some.mp hkey)
  have hsame : key.same = Value.isNamed name := by
    funext other
    rw [Value.text?_eq_some.mp hkey, Value.same_ofText]
  obtain ⟨hnone, hset⟩ | ⟨before, k, old, after, hlast, hset⟩ := setPair_cases pairs key new
  · rw [hset, hnew]
    simp [member?, children, Pairs.findLast?_append, Pairs.findLast?, hname]
  · rw [hset, hnew]
    rw [hsame] at hlast
    exact (hlast.withValue new).findLast?

/-- Storing under a key leaves the children with other names alone. -/
theorem member?_setPair_of_not_named (hkey : Value.isNamed name key = false) :
    (table (setPair pairs key new)).member? name = (table pairs).member? name := by
  obtain ⟨hnone, hset⟩ | ⟨before, k, old, after, hlast, hset⟩ := setPair_cases pairs key new
  · rw [hset]
    cases new.isNil with
    | true => rfl
    | false => simp [member?, children, Pairs.findLast?_append, Pairs.findLast?, hkey]
  · have hk : Value.isNamed name k = false := by
      rw [Value.isNamed_of_same hlast.isChosen, hkey]
    have hold : (table pairs).member? name =
        Pairs.findLast? (Value.isNamed name) (before ++ after) :=
      hlast.findLast?_skip hk
    rw [hset, hold]
    cases new.isNil with
    | true => rfl
    | false => exact (hlast.withValue new).findLast?_skip hk

/-- Placing a node further down goes on from the child with the next name, or from a new table. -/
theorem place_cons_cons (new : Entry φ) (name next : String) (rest : List String) (e : Entry φ) :
    place new (name :: next :: rest) e =
      .table ((Pairs.replaceLast? (Value.isNamed name)
          (place new (next :: rest) ((e.member? name).getD (.table []))) e.children).getD
        (e.children ++
          [(.ofText name, place new (next :: rest) ((e.member? name).getD (.table [])))])) :=
  rfl

/-- Exchanging a node below a child changes this child where it stands. -/
theorem exchange_cons
    (h : Pairs.LastAt (Value.isNamed name) e.children before key child after) (new : Entry φ)
    (rest : List String) :
    exchange new (name :: rest) e = .table (before ++ (key, exchange new rest child) :: after) := by
  have hmember : e.member? name = some child := h.findLast?
  rw [exchange, hmember]
  simp only [h.replaceLast?, Option.getD_some]

/-- The child on the way is the exchanged one. -/
theorem member?_exchange_self (h : e.member? name = some child) (new : Entry φ)
    (rest : List String) :
    (exchange new (name :: rest) e).member? name = some (exchange new rest child) := by
  obtain ⟨before, key, after, hlast⟩ := lastAt_of_member? h
  rw [exchange_cons hlast]
  exact (hlast.withValue _).findLast?

/-- The children beside the way stay. -/
theorem member?_exchange_of_ne (h : name ≠ other) (new e : Entry φ) (rest : List String) :
    (exchange new (name :: rest) e).member? other = e.member? other := by
  cases hmember : e.member? name with
  | none => rw [exchange, hmember]
  | some child =>
    obtain ⟨before, key, after, hlast⟩ := lastAt_of_member? hmember
    have hkey : Value.isNamed other key = false := by
      rw [Value.isNamed_iff.mp hlast.isChosen, Value.isNamed_ofText, decide_eq_false h]
    rw [exchange_cons hlast]
    exact ((hlast.withValue _).findLast?_skip hkey).trans (hlast.findLast?_skip hkey).symm

/-! ### Any depth -/

/-- Names in a row lead on from where the first of them lead. -/
theorem descend?_append (names more : List String) (e : Entry φ) :
    descend? (names ++ more) e = (descend? names e).bind (descend? more) := by
  induction names generalizing e with
  | nil => rfl
  | cons name names ih =>
    rw [List.cons_append, descend?, descend?, Option.bind_assoc]
    exact congrArg _ (funext ih)

/-- From the exchanged place on, the new node is what is there. -/
theorem descend?_exchange (h : descend? names e = some old) (new : Entry φ) (more : List String) :
    descend? (names ++ more) (exchange new names e) = descend? more new := by
  induction names generalizing e with
  | nil => rfl
  | cons name names ih =>
    obtain ⟨child, hchild, hrest⟩ := Option.bind_eq_some_iff.mp h
    rw [List.cons_append, descend?, member?_exchange_self hchild, Option.bind_some, ih hrest]

/-- Above the exchanged place a node changes by the exchange below it. -/
theorem descend?_exchange_above (new : Entry φ) (names more : List String) (e : Entry φ) :
    descend? names (exchange new (names ++ more) e) =
      (descend? names e).map (exchange new more) := by
  induction names generalizing e with
  | nil => rfl
  | cons name names ih =>
    rw [List.cons_append, descend?, descend?]
    cases hmember : e.member? name with
    | none =>
      rw [exchange, hmember]
      exact congrArg (Option.bind · _) hmember
    | some child => rw [member?_exchange_self hmember, Option.bind_some, Option.bind_some, ih]

/-- What lies on neither side of the exchanged place stays. -/
theorem descend?_exchange_of_apart (habove : ¬ more <+: names) (hbelow : ¬ names <+: more)
    (new e : Entry φ) : descend? more (exchange new names e) = descend? more e := by
  induction names generalizing more e with
  | nil => exact absurd (List.nil_prefix) hbelow
  | cons name names ih =>
    cases more with
    | nil => exact absurd (List.nil_prefix) habove
    | cons other more =>
      by_cases hname : name = other
      · subst hname
        cases hmember : e.member? name with
        | none => rw [exchange, hmember]
        | some child =>
          have hchild : descend? more (exchange new names child) = descend? more child :=
            ih (fun h => habove ((List.prefix_cons_inj name).mpr h))
              (fun h => hbelow ((List.prefix_cons_inj name).mpr h)) child
          rw [descend?, descend?, member?_exchange_self hmember, hmember, Option.bind_some,
            Option.bind_some, hchild]
      · rw [descend?, descend?, member?_exchange_of_ne hname]

end Entry

namespace Namespace

variable {φ : Type} {ns : Namespace φ} {p q : Path} {e old : Entry φ} {name : String}

@[simp] theorem global?_setGlobal (ns : Namespace φ) (name n : String) (e : Entry φ) :
    (ns.setGlobal name e).global? n = if name = n then some e else ns.global? n := by
  rw [global?, setGlobal, Pairs.find?_insertSorted]
  by_cases h : name = n
  · simp [h]
  · simp [h, global?]

@[simp] theorem global?_eraseGlobal (ns : Namespace φ) (name n : String) :
    (ns.eraseGlobal name).global? n = if name = n then none else ns.global? n := by
  rw [global?, eraseGlobal, List.find?_filter]
  by_cases h : name = n
  · subst h
    simp
  · have hpick (pair : String × Entry φ) :
        (!decide (pair.1 = name) && decide (pair.1 = n)) = decide (pair.1 = n) := by
      by_cases hn : pair.1 = n
      · simp [hn, Ne.symm h]
      · simp [hn]
    simp [h, hpick, global?]

/-- What is read depends on the node at the path only. -/
theorem resolve_congr {ns ns' : Namespace φ} (h : ns'.lookup? q = ns.lookup? q) :
    ns'.resolve q = ns.resolve q := by
  rw [resolve, resolve, h]

/-- A longer path goes on from the node at its beginning. -/
theorem lookup?_append (h : ns.lookup? p = some e) (more : List String) :
    ns.lookup? ⟨p.segments ++ more⟩ = Entry.descend? more e := by
  obtain ⟨segments⟩ := p
  cases segments with
  | nil => cases h
  | cons first rest =>
    obtain ⟨top, htop, hrest⟩ := Option.bind_eq_some_iff.mp h
    rw [lookup?, List.cons_append]
    simp only [htop, Option.bind_some, Entry.descend?_append, hrest]

/-- From the exchanged place on, the new node is what is there. -/
theorem lookup?_exchange (h : ns.lookup? p = some old) (new : Entry φ) (more : List String) :
    (ns.exchange p new).lookup? ⟨p.segments ++ more⟩ = Entry.descend? more new := by
  obtain ⟨segments⟩ := p
  cases segments with
  | nil => cases h
  | cons first rest =>
    obtain ⟨e, he, hrest⟩ := Option.bind_eq_some_iff.mp h
    simp only [exchange, he, lookup?, List.cons_append, global?_setGlobal, if_true,
      Option.bind_some]
    exact Entry.descend?_exchange hrest new more

/-- Above the exchanged place a node changes by the exchange below it. -/
theorem lookup?_exchange_above (ns : Namespace φ) (q : Path) (more : List String) (new : Entry φ) :
    (ns.exchange ⟨q.segments ++ more⟩ new).lookup? q =
      (ns.lookup? q).map (Entry.exchange new more) := by
  obtain ⟨segments⟩ := q
  cases segments with
  | nil => rfl
  | cons first rest =>
    simp only [exchange, List.cons_append, lookup?]
    cases hglobal : ns.global? first with
    | none => simp only [hglobal, Option.bind_none, Option.map_none]
    | some e =>
      simp only [global?_setGlobal, if_true, Option.bind_some]
      exact Entry.descend?_exchange_above new rest more e

/-- What lies on neither side of the exchanged place stays. -/
theorem lookup?_exchange_of_apart (habove : ¬ q.segments <+: p.segments)
    (hbelow : ¬ p.segments <+: q.segments) (ns : Namespace φ) (new : Entry φ) :
    (ns.exchange p new).lookup? q = ns.lookup? q := by
  obtain ⟨names⟩ := p
  obtain ⟨more⟩ := q
  cases names with
  | nil => exact absurd List.nil_prefix hbelow
  | cons name names =>
    cases more with
    | nil => exact absurd List.nil_prefix habove
    | cons other more =>
      cases hglobal : ns.global? name with
      | none => simp only [exchange, hglobal]
      | some e =>
        simp only [exchange, hglobal, lookup?, global?_setGlobal]
        by_cases hname : name = other
        · subst hname
          rw [if_pos rfl, hglobal, Option.bind_some, Option.bind_some]
          exact Entry.descend?_exchange_of_apart
            (fun h => habove ((List.prefix_cons_inj name).mpr h))
            (fun h => hbelow ((List.prefix_cons_inj name).mpr h)) new e
        · rw [if_neg hname]

end Namespace

end RemoteCall
