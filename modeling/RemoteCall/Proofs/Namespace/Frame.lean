import Mathlib.Data.List.Forall2
import RemoteCall.Namespace.Stock
import RemoteCall.Proofs.Namespace.Navigation

/-!
# What writes and calls leave alone

A write that fails changes nothing. A call changes the state of one function and nothing that can be
read: in a snapshot a function is the text of its path, whatever its state. Both hold in every tree.
A call has one more effect, on the function itself, which is run once on the arguments as it sees
them, and on no other function.
-/

namespace RemoteCall

/-- Of two paths the second is a beginning of the first, or goes on from it, or they part. -/
theorem Path.cases_of_prefix (p q : Path) :
    (∃ more, p = ⟨q.segments ++ more⟩) ∨
    (∃ name more, q = ⟨p.segments ++ name :: more⟩) ∨
    (¬ q.segments <+: p.segments ∧ ¬ p.segments <+: q.segments) := by
  by_cases habove : q.segments <+: p.segments
  · obtain ⟨more, hmore⟩ := habove
    exact .inl ⟨more, by rw [hmore]⟩
  · by_cases hbelow : p.segments <+: q.segments
    · obtain ⟨more, hmore⟩ := hbelow
      cases more with
      | nil => exact absurd ⟨[], by rw [← hmore, List.append_nil, List.append_nil]⟩ habove
      | cons name more => exact .inr (.inl ⟨name, more, by rw [hmore]⟩)
    · exact .inr (.inr ⟨habove, hbelow⟩)

namespace Entry

variable {φ : Type} {e : Entry φ} {name : String} {names more : List String} {f : φ}

/-- Pairs are read one after another. -/
theorem snapshotPairs_append (path : String) (front back : List (Value × Entry φ)) :
    snapshotPairs path (front ++ back) = snapshotPairs path front ++ snapshotPairs path back := by
  induction front with
  | nil => rfl
  | cons pair front ih =>
    obtain ⟨key, e⟩ := pair
    rw [List.cons_append, snapshotPairs, snapshotPairs, ih, List.cons_append]

/-- A snapshot does not tell one function from another in its place. -/
theorem snapshot_exchange_function (h : descend? names e = some (.function f)) (f' : φ)
    (path : String) : (exchange (.function f') names e).snapshot path = e.snapshot path := by
  induction names generalizing e path with
  | nil =>
    cases h
    rfl
  | cons name names ih =>
    obtain ⟨child, hmember, hrest⟩ := Option.bind_eq_some_iff.mp h
    obtain ⟨before, key, after, hlast⟩ := lastAt_of_member? hmember
    rw [exchange_cons hlast, eq_table_of_member? hmember, hlast.split, snapshot, snapshot,
      snapshotPairs_append, snapshotPairs_append, snapshotPairs, snapshotPairs,
      Value.isNamed_iff.mp hlast.isChosen, Value.text?_ofText]
    simp only [ih hrest]

/-- Nothing lies below a function. -/
theorem descend?_function (f : φ) (name : String) (more : List String) :
    descend? (name :: more) (.function f : Entry φ) = none := rfl

/-- What has something below it is a table, and stays one when this is exchanged. -/
theorem not_function_of_descend? {old : Entry φ} (h : descend? (name :: more) e = some old)
    (new : Entry φ) (g : φ) : e ≠ .function g ∧ exchange new (name :: more) e ≠ .function g := by
  obtain ⟨child, hmember, -⟩ := Option.bind_eq_some_iff.mp h
  obtain ⟨before, key, after, hlast⟩ := lastAt_of_member? hmember
  rw [exchange_cons hlast]
  refine ⟨?_, nofun⟩
  rintro rfl
  cases hmember

end Entry

namespace Namespace

variable {φ : Type} {ns : Namespace φ} {p q : Path} {f : φ}

/-- Whatever state a function is in, the same is read at every path. -/
theorem resolve_exchange_function (h : ns.lookup? p = some (.function f)) (f' : φ) (q : Path) :
    (ns.exchange p (.function f')).resolve q = ns.resolve q := by
  obtain ⟨more, rfl⟩ | ⟨name, more, rfl⟩ | ⟨habove, hbelow⟩ := p.cases_of_prefix q
  · rw [resolve, resolve, lookup?_exchange_above]
    cases hq : ns.lookup? q with
    | none => rfl
    | some e =>
      rw [lookup?_append hq] at h
      exact congrArg _ (Entry.snapshot_exchange_function h f' _)
  · refine resolve_congr ?_
    rw [lookup?_exchange h, lookup?_append h, Entry.descend?_function, Entry.descend?_function]
  · exact resolve_congr (lookup?_exchange_of_apart habove hbelow ns _)

/-- All other functions stay what and where they are. -/
theorem lookup?_exchange_function (h : ns.lookup? p = some (.function f)) (f' g : φ)
    (hq : q ≠ p) :
    (ns.exchange p (.function f')).lookup? q = some (.function g) ↔
      ns.lookup? q = some (.function g) := by
  obtain ⟨more, rfl⟩ | ⟨name, more, rfl⟩ | ⟨habove, hbelow⟩ := p.cases_of_prefix q
  · cases more with
    | nil => exact absurd (congrArg Path.mk (List.append_nil _)).symm hq
    | cons name more =>
      rw [lookup?_exchange_above]
      cases hlookup : ns.lookup? q with
      | none => rfl
      | some e =>
        rw [lookup?_append hlookup] at h
        obtain ⟨hold, hnew⟩ := Entry.not_function_of_descend? h (.function f') g
        simp [hold, hnew]
  · rw [lookup?_exchange h, lookup?_append h, Entry.descend?_function, Entry.descend?_function]
  · rw [lookup?_exchange_of_apart habove hbelow]

/-! ### Writes that fail -/

/-- Why nothing can be assigned under a key at a path. -/
inductive Refuses (ns : Namespace φ) (p : Path) (key : Value) : HostError → Prop where
  /-- Top-level names are text. -/
  | nameless (hp : p.isRoot = true) (hkey : key.text? = none) :
    Refuses ns p key (.ofMessage "global names must be strings")
  /-- Nothing lives at the path. -/
  | missing (hp : p.isRoot = false) (hnone : ns.lookup? p = none) :
    Refuses ns p key (.ofMissing p)
  /-- What lives there is data of another kind or a function. -/
  | noTable (e : Entry φ) (hsome : ns.lookup? p = some e) (htable : ∀ pairs, e ≠ .table pairs) :
    Refuses ns p key (.ofMessage ("cannot index " ++ p.text ++ ": not a table"))

/-- With any such reason the write fails and changes nothing. -/
theorem Refuses.assign_eq {key : Value} {e : HostError} (h : ns.Refuses p key e) (value : Value) :
    ns.assign p key value = (.error e, ns) := by
  cases h with
  | nameless hp hkey => simp only [assign, hp, if_true, hkey]
  | missing hp hnone => simp only [assign, hp, Bool.false_eq_true, if_false, hnone]
  | noTable node hsome htable =>
    have hp : p.isRoot = false := by
      obtain ⟨segments⟩ := p
      cases segments with
      | nil => cases hsome
      | cons first rest => rfl
    simp only [assign, hp, Bool.false_eq_true, if_false, hsome]

/-- A write that fails has one of these reasons. -/
theorem refuses_of_assign {key value : Value} {e : HostError}
    (h : (ns.assign p key value).1 = .error e) : ns.Refuses p key e := by
  rw [assign] at h
  cases hp : p.isRoot with
  | true =>
    rw [hp, if_pos rfl] at h
    cases hkey : key.text? with
    | none =>
      rw [hkey] at h
      cases h
      exact .nameless hp hkey
    | some name =>
      rw [hkey] at h
      cases h
  | false =>
    rw [hp, if_neg Bool.false_ne_true] at h
    cases hlookup : ns.lookup? p with
    | none =>
      rw [hlookup] at h
      cases h
      exact .missing hp hlookup
    | some node =>
      rw [hlookup] at h
      cases node with
      | value v =>
        cases h
        exact .noTable _ hlookup nofun
      | function f =>
        cases h
        exact .noTable _ hlookup nofun
      | table pairs => cases h

/-! ### Calls -/

/-- What a function sees of an argument: of a reference the value that is read at its path, or nil
if nothing is. -/
inductive Sees (ns : Namespace φ) : Value → Value → Prop where
  | found {text : String} {v : Value} (h : ns.resolve (.parse text) = .ok v) :
    Sees ns (.remote text) v
  | missing {text : String} {e : HostError} (h : ns.resolve (.parse text) = .error e) :
    Sees ns (.remote text) .nil
  | plain {v : Value} (h : ∀ text, v ≠ .remote text) : Sees ns v v

/-- A function sees of an argument what it stands for. -/
theorem sees_dereference (ns : Namespace φ) (v : Value) : ns.Sees v (ns.dereference v) := by
  cases v with
  | remote text =>
    rw [dereference, get?]
    cases h : ns.resolve (.parse text) with
    | ok v => exact .found h
    | error e => exact .missing h
  | _ => exact .plain nofun

/-- A call at the path runs this function once on these values: the answer and the next state of the
function are those of one call, and no other function has moved. -/
structure Calls [Callable φ] (ns : Namespace φ) (p : Path) (f : φ) (args seen : List Value) :
    Prop where
  answers : (ns.invoke p args).1 = (Callable.call f seen).1
  advances : (ns.invoke p args).2.lookup? p = some (.function (Callable.call f seen).2)
  others : ∀ q g, q ≠ p → ((ns.invoke p args).2.lookup? q = some (.function g) ↔
    ns.lookup? q = some (.function g))

variable [Callable φ]

/-- A function that is found is called once, with the arguments as it sees them. -/
theorem invoke_function (h : ns.lookup? p = some (.function f)) (args : List Value) :
    ns.invoke p args = ((Callable.call f (args.map ns.dereference)).1,
      ns.exchange p (.function (Callable.call f (args.map ns.dereference)).2)) := by
  simp only [invoke, h]

/-- Nothing but a function is called. -/
theorem invoke_of_not_function (h : ∀ f, ns.lookup? p ≠ some (.function f)) (args : List Value) :
    ns.invoke p args = (.error (.notCallable p.text), ns) := by
  unfold invoke
  split
  · rename_i f hlookup
    exact absurd hlookup (h f)
  · rfl

/-- A call is read nowhere. -/
theorem resolve_invoke (ns : Namespace φ) (p : Path) (args : List Value) (q : Path) :
    (ns.invoke p args).2.resolve q = ns.resolve q := by
  by_cases h : ∃ f, ns.lookup? p = some (.function f)
  · obtain ⟨f, hf⟩ := h
    rw [invoke_function hf]
    exact resolve_exchange_function hf _ q
  · rw [invoke_of_not_function (not_exists.mp h)]

/-- A call where a function stands runs it on what it sees of the arguments. -/
theorem calls_of_lookup? (h : ns.lookup? p = some (.function f)) (args : List Value) :
    ns.Calls p f args (args.map ns.dereference) := by
  have hself := lookup?_exchange h (.function (Callable.call f (args.map ns.dereference)).2) []
  rw [List.append_nil] at hself
  refine ⟨?_, ?_, fun q g hq => ?_⟩
  · rw [invoke_function h]
  · rw [invoke_function h]
    exact hself
  · rw [invoke_function h]
    exact lookup?_exchange_function h _ g hq

/-- Failed writes and all calls leave the data alone. A write fails for the reasons listed and for
no other, and then nothing has changed. After a call every path reads as before, whether it succeeds
or fails. It runs the function at the path, if there is one, once, on the arguments in their order
as they are seen at that moment, and no other function; if there is none, it fails as not callable
and the functions are also as before. -/
theorem assign_invoke_frame (ns : Namespace φ) (p : Path) :
    (∀ key value e, (ns.assign p key value).1 = .error e ↔ ns.Refuses p key e) ∧
    (∀ key value e, (ns.assign p key value).1 = .error e → (ns.assign p key value).2 = ns) ∧
    (∀ args q, (ns.invoke p args).2.resolve q = ns.resolve q) ∧
    (∀ args f, ns.lookup? p = some (.function f) →
      ∃ seen, List.Forall₂ ns.Sees args seen ∧ ns.Calls p f args seen) ∧
    ∀ args, (∀ f, ns.lookup? p ≠ some (.function f)) →
      ns.invoke p args = (.error (.notCallable p.text), ns) := by
  refine ⟨fun key value e => ⟨refuses_of_assign, ?_⟩, fun key value e h => ?_, resolve_invoke ns p,
    fun args f h => ?_, fun args h => invoke_of_not_function h args⟩
  · intro h
    exact congrArg Prod.fst (h.assign_eq value)
  · exact congrArg Prod.snd ((refuses_of_assign h).assign_eq value)
  · refine ⟨args.map ns.dereference, ?_, calls_of_lookup? h args⟩
    rw [List.forall₂_map_right_iff, List.forall₂_same]
    exact fun v _ => ns.sees_dereference v

/-- A counter at the top level. -/
def counting : Namespace Stock := empty.register "c" (.count 0)

/-- The counter is called with a reference to itself, a reference to nothing and a boolean. It has
counted once, which is not read at any path, and there is no table to assign to. -/
theorem assign_invoke_frame_counting :
    (∃ seen, List.Forall₂ counting.Sees [.remote "c", .remote "x", .boolean true] seen ∧
      counting.Calls ⟨["c"]⟩ (.count 0) [.remote "c", .remote "x", .boolean true] seen) ∧
    (counting.invoke ⟨["c"]⟩ [.remote "c", .remote "x", .boolean true]).2.lookup? ⟨["c"]⟩ =
      some (.function (.count 1)) ∧
    (∀ q, (counting.invoke ⟨["c"]⟩ [.remote "c", .remote "x", .boolean true]).2.resolve q =
      counting.resolve q) ∧
    (counting.assign ⟨["c"]⟩ (.ofText "k") .nil).1 =
      .error (.ofMessage "cannot index c: not a table") := by
  have hlookup : counting.lookup? ⟨["c"]⟩ = some (.function (.count 0)) := rfl
  obtain ⟨hrefused, -, hread, hcalls, -⟩ := assign_invoke_frame counting ⟨["c"]⟩
  obtain ⟨seen, hsees, hcall⟩ := hcalls [.remote "c", .remote "x", .boolean true] _ hlookup
  exact ⟨⟨seen, hsees, hcall⟩, hcall.advances, hread _,
    (hrefused _ _ _).mpr (.noTable _ hlookup nofun)⟩

end Namespace

end RemoteCall
