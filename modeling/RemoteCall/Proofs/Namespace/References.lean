import RemoteCall.Namespace.Stock
import RemoteCall.Proofs.Namespace.Reach

/-!
# References to functions

A node is identified by its position: the indices of the pairs on the way to it. A path leads to one
position at most. In a namespace that can come about, the reference that a snapshot shows in the
place of a function leads back to the position of that very function, and every function, wherever
it stands, has such a reference.
-/

namespace RemoteCall

/-- The index of the last pair whose key is chosen. -/
def Pairs.lastIndex? {α β : Type} (chosen : α → Bool) : List (α × β) → Option Nat
  | [] => none
  | pair :: rest =>
    ((lastIndex? chosen rest).map (· + 1)).or (if chosen pair.1 then some 0 else none)

/-- The part of a value at a position. -/
def Value.at? : List Nat → Value → Option Value
  | [], v => some v
  | i :: position, v =>
    match v with
    | .table pairs => (pairs[i]?).bind fun pair => at? position pair.2
    | _ => none

namespace Entry

variable {φ : Type}

/-- The node at a position below this one. -/
def at? : List Nat → Entry φ → Option (Entry φ)
  | [], e => some e
  | i :: position, e => (e.children[i]?).bind fun pair => at? position pair.2

/-- The position that a list of names leads to from here. -/
def position? : List String → Entry φ → Option (List Nat)
  | [], _ => some []
  | name :: rest, e =>
    (Pairs.lastIndex? (Value.isNamed name) e.children).bind fun i =>
      (e.children[i]?).bind fun pair => (position? rest pair.2).map (i :: ·)

end Entry

namespace Namespace

variable {φ : Type}

/-- The node at a position. -/
def at? (ns : Namespace φ) : List Nat → Option (Entry φ)
  | [] => none
  | i :: position => (ns.globals[i]?).bind fun pair => pair.2.at? position

/-- The position that a path leads to. -/
def position? (ns : Namespace φ) (p : Path) : Option (List Nat) :=
  match p.segments with
  | [] => none
  | first :: rest =>
    (ns.globals.findIdx? (·.1 = first)).bind fun i =>
      (ns.globals[i]?).bind fun pair => (pair.2.position? rest).map (i :: ·)

/-- Calling at the path runs the function at the position: with the arguments as it sees them it
answers and goes on to its next state there, and all other functions stay what and where they
are. -/
structure Runs [Callable φ] (ns : Namespace φ) (p : Path) (position : List Nat) (f : φ) : Prop where
  leads : ns.position? p = some position
  found : ns.lookup? p = some (.function f)
  runs : ∀ args answer f', Callable.call f (args.map ns.dereference) = (answer, f') →
    ∃ ns', ns.invoke p args = (answer, ns') ∧ ns'.at? position = some (.function f') ∧
      ∀ other g, other ≠ position →
        (ns'.at? other = some (.function g) ↔ ns.at? other = some (.function g))

end Namespace

/-! ### The last pair and its index -/

namespace Pairs

variable {α β : Type} {chosen : α → Bool} {pairs before after : List (α × β)} {key : α} {value : β}

/-- Where no key is chosen there is no last one. -/
theorem lastIndex?_of_none (h : ∀ pair ∈ pairs, chosen pair.1 = false) :
    lastIndex? chosen pairs = none := by
  induction pairs with
  | nil => rfl
  | cons pair pairs ih =>
    rw [lastIndex?, ih fun pair hpair => h pair (List.mem_cons_of_mem _ hpair),
      h pair List.mem_cons_self]
    rfl

/-- The last index is behind all pairs before the last one. -/
theorem LastAt.lastIndex? (h : LastAt chosen pairs before key value after) :
    lastIndex? chosen pairs = some before.length := by
  rw [h.split]
  induction before generalizing pairs with
  | nil =>
    rw [List.nil_append, Pairs.lastIndex?, lastIndex?_of_none h.later, h.isChosen]
    rfl
  | cons pair before ih =>
    rw [List.cons_append, Pairs.lastIndex?, ih ⟨rfl, h.isChosen, h.later⟩]
    rfl

/-- The last pair stands behind all pairs before it. -/
theorem LastAt.getElem? (h : LastAt chosen pairs before key value after) :
    pairs[before.length]? = some (key, value) := by
  rw [h.split, List.getElem?_append_right (Nat.le_refl _), Nat.sub_self, List.getElem?_cons_zero]

/-- Beside a changed pair the pairs are the same. -/
theorem getElem?_of_ne {i : Nat} (hi : i ≠ before.length) (pair pair' : α × β) :
    (before ++ pair :: after)[i]? = (before ++ pair' :: after)[i]? := by
  rcases Nat.lt_or_gt_of_ne hi with hlt | hgt
  · rw [List.getElem?_append_left hlt, List.getElem?_append_left hlt]
  · obtain ⟨k, hk⟩ := Nat.exists_eq_add_of_lt hgt
    have hindex : i - before.length = k + 1 := by omega
    rw [List.getElem?_append_right (Nat.le_of_lt hgt),
      List.getElem?_append_right (Nat.le_of_lt hgt), hindex, List.getElem?_cons_succ,
      List.getElem?_cons_succ]

end Pairs

namespace Entry

variable {φ : Type} {e new child : Entry φ} {pairs before after : List (Value × Entry φ)}
  {key : Value} {name : String} {names : List String} {i : Nat} {position other : List Nat}
  {f g : φ}

/-- A name leads to the last child with it, and the other names on from there. -/
theorem position?_cons (h : Pairs.LastAt (Value.isNamed name) e.children before key child after)
    (rest : List String) :
    position? (name :: rest) e = (position? rest child).map (before.length :: ·) := by
  rw [position?, h.lastIndex?, Option.bind_some, h.getElem?, Option.bind_some]

/-- A position begins with the index of the last pair with the first name. -/
theorem lastAt_of_position? (h : position? (name :: names) e = some position) :
    ∃ before key child after below,
      Pairs.LastAt (Value.isNamed name) e.children before key child after ∧
        position? names child = some below ∧ position = before.length :: below := by
  obtain hnone | ⟨before, key, child, after, hlast⟩ :=
    Pairs.none_or_lastAt (Value.isNamed name) e.children
  · rw [position?, Pairs.lastIndex?_of_none hnone] at h
    cases h
  · rw [position?_cons hlast] at h
    obtain ⟨below, hbelow, hsame⟩ := Option.map_eq_some_iff.mp h
    exact ⟨before, key, child, after, below, hlast, hbelow, hsame.symm⟩

/-- Positions in a row lead on from where the first of them lead. -/
theorem at?_append (position more : List Nat) (e : Entry φ) :
    at? (position ++ more) e = (at? position e).bind (at? more) := by
  induction position generalizing e with
  | nil => rfl
  | cons i position ih =>
    rw [List.cons_append, at?, at?, Option.bind_assoc]
    exact congrArg _ (funext fun pair => ih pair.2)

/-- A list of names leads to the node at its position, and nowhere if it has none. -/
theorem descend?_eq_at? (names : List String) (e : Entry φ) :
    descend? names e = (position? names e).bind fun position => at? position e := by
  induction names generalizing e with
  | nil => rfl
  | cons name rest ih =>
    obtain hnone | ⟨before, key, child, after, hlast⟩ :=
      Pairs.none_or_lastAt (Value.isNamed name) e.children
    · rw [descend?, member?, Pairs.findLast?_of_none hnone, position?,
        Pairs.lastIndex?_of_none hnone]
      rfl
    · rw [descend?, member?, hlast.findLast?, Option.bind_some, ih, position?_cons hlast,
        Option.bind_map]
      refine congrArg _ (funext fun position => ?_)
      simp only [Function.comp_apply, at?, hlast.getElem?, Option.bind_some]

/-- The position of more names goes on from the position of the first ones. -/
theorem position?_append {position : List Nat} (hposition : position? names e = some position)
    (hat : at? position e = some child) (more : List String) :
    position? (names ++ more) e = (position? more child).map (position ++ ·) := by
  induction names generalizing e position with
  | nil =>
    cases hposition
    cases hat
    simp
  | cons name rest ih =>
    obtain ⟨before, key, next, after, below, hlast, hbelow, rfl⟩ := lastAt_of_position? hposition
    rw [at?, hlast.getElem?, Option.bind_some] at hat
    rw [List.cons_append, position?_cons hlast, ih hbelow hat, Option.map_map]
    rfl

/-- A function at a position is a function below. -/
theorem hasFunction_of_at? (h : at? position e = some (.function f)) : e.HasFunction := by
  induction position generalizing e with
  | nil =>
    cases h
    exact .function f
  | cons i position ih =>
    obtain ⟨pair, hpair, hbelow⟩ := Option.bind_eq_some_iff.mp h
    exact hasFunction_ofChildren (.table (List.mem_of_getElem? hpair) (ih hbelow))

/-- The way to a function goes over names that can stand between dots. -/
theorem Clear.isName_of_descend? (h : e.Clear) (hdescend : Entry.descend? names e = some child)
    (hf : child.HasFunction) : (∀ name ∈ names, Path.IsName name) ∧ e.HasFunction := by
  induction names generalizing e with
  | nil =>
    cases hdescend
    exact ⟨fun _ hmem => absurd hmem List.not_mem_nil, hf⟩
  | cons name rest ih =>
    obtain ⟨next, hmember, hrest⟩ := Option.bind_eq_some_iff.mp hdescend
    obtain ⟨hnames, hnext⟩ := ih (h.member? hmember) hrest
    obtain ⟨before, key, after, hlast⟩ := lastAt_of_member? hmember
    have hmem : (key, next) ∈ e.children := List.mem_of_getElem? hlast.getElem?
    obtain ⟨s, hs, hkey⟩ := h.ofChildren.named _ hmem hnext
    have hname : Value.isNamed name (.ofText s) = true := hkey ▸ hlast.isChosen
    rw [Value.isNamed_ofText] at hname
    have hsame : s = name := of_decide_eq_true hname
    exact ⟨List.forall_mem_cons.mpr ⟨hsame ▸ hs, hnames⟩,
      hasFunction_ofChildren (.table hmem hnext)⟩

/-- A snapshot shows a child under a name at the child's place, seen at the path with this name. -/
theorem getElem?_snapshotPairs (path : String)
    (h : pairs[i]? = some (.ofText name, child)) :
    (snapshotPairs path pairs)[i]? = some (.ofText name, child.snapshot (path ++ "." ++ name)) := by
  induction pairs generalizing i with
  | nil => cases h
  | cons pair pairs ih =>
    cases i with
    | zero =>
      cases h
      rw [snapshotPairs, Value.text?_ofText, List.getElem?_cons_zero]
    | succ i => exact ih h

/-- The pair of a function's child is the last with its key, and the key is a name. -/
theorem Clear.lastAt_of_getElem? (h : Clear (.table pairs)) (hpair : pairs[i]? = some (key, child))
    (hf : child.HasFunction) :
    ∃ s before after, Path.IsName s ∧ key = .ofText s ∧ before.length = i ∧
      Pairs.LastAt (Value.isNamed s) pairs before key child after := by
  obtain ⟨hlt, hget⟩ := List.getElem?_eq_some_iff.mp hpair
  obtain ⟨s, hs, hkey⟩ := h.named _ (List.mem_of_getElem? hpair) hf
  have hsplit : pairs = pairs.take i ++ (key, child) :: pairs.drop (i + 1) := by
    rw [← hget, ← List.drop_eq_getElem_cons hlt, List.take_append_drop]
  have hunshadowed := h.unshadowed
  rw [hsplit] at hunshadowed
  have hafter := (List.pairwise_cons.mp (List.pairwise_append.mp hunshadowed).2.1).1
  refine ⟨s, pairs.take i, pairs.drop (i + 1), hs, hkey, ?_, hsplit, ?_, ?_⟩
  · exact List.length_take_of_le (Nat.le_of_lt hlt)
  · exact Value.isNamed_iff.mpr hkey
  · intro later hlater
    rw [Bool.eq_false_iff, Ne, Value.isNamed_iff, ← hkey]
    exact hafter later hlater hf

/-- Every function below a clear node has names that lead to its position, and the snapshot of the
node shows there a reference to the path with these names. -/
theorem Clear.reference (h : e.Clear) (hat : at? position e = some (.function f)) :
    ∃ names, (∀ name ∈ names, Path.IsName name) ∧ position? names e = some position ∧
      ∀ path, (e.snapshot path).at? position =
        some (.remote (names.foldl (fun text name => text ++ "." ++ name) path)) := by
  induction position generalizing e with
  | nil =>
    cases hat
    exact ⟨[], fun _ hmem => absurd hmem List.not_mem_nil, rfl, fun path => rfl⟩
  | cons i position ih =>
    obtain ⟨⟨key, child⟩, hpair, hbelow⟩ := Option.bind_eq_some_iff.mp hat
    cases e with
    | value v => cases hpair
    | function f => cases hpair
    | table pairs =>
      obtain ⟨s, before, after, hs, rfl, rfl, hlast⟩ :=
        h.lastAt_of_getElem? hpair (hasFunction_of_at? hbelow)
      obtain ⟨names, hnames, hposition, hsnapshot⟩ :=
        ih (h.children _ (List.mem_of_getElem? hpair)) hbelow
      refine ⟨s :: names, List.forall_mem_cons.mpr ⟨hs, hnames⟩, ?_, ?_⟩
      · rw [position?_cons hlast, hposition]
        rfl
      · intro path
        have hplace : pairs[before.length]? = some (.ofText s, child) := hpair
        simp only [snapshot, Value.at?, getElem?_snapshotPairs path hplace, Option.bind_some]
        exact hsnapshot _

/-- The exchanged node stands at the position. -/
theorem at?_exchange (hposition : position? names e = some position) (new : Entry φ) :
    at? position (exchange new names e) = some new := by
  induction names generalizing e position with
  | nil =>
    cases hposition
    rfl
  | cons name rest ih =>
    obtain ⟨before, key, child, after, below, hlast, hbelow, rfl⟩ := lastAt_of_position? hposition
    rw [exchange_cons hlast, at?, children, (hlast.withValue _).getElem?, Option.bind_some]
    exact ih hbelow

/-- Exchanging a function for another leaves all other functions what and where they are. -/
theorem at?_exchange_function {f' : φ} (hposition : position? names e = some position)
    (hat : at? position e = some (.function f)) (hother : other ≠ position) :
    at? other (exchange (.function f') names e) = some (.function g) ↔
      at? other e = some (.function g) := by
  induction names generalizing e position other with
  | nil =>
    cases hposition
    cases hat
    cases other with
    | nil => exact absurd rfl hother
    | cons i other => rfl
  | cons name rest ih =>
    obtain ⟨before, key, child, after, below, hlast, hbelow, rfl⟩ := lastAt_of_position? hposition
    rw [at?, hlast.getElem?, Option.bind_some] at hat
    have hmember : e.member? name = some child := hlast.findLast?
    rw [exchange_cons hlast]
    cases other with
    | nil =>
      rw [eq_table_of_member? hmember]
      simp [at?]
    | cons i other =>
      rw [at?, at?, children, hlast.split]
      by_cases hi : i = before.length
      · subst hi
        have hne : other ≠ below := fun hsame => hother (by rw [hsame])
        simp only [List.getElem?_append_right (Nat.le_refl _), Nat.sub_self,
          List.getElem?_cons_zero, Option.bind_some]
        exact ih hbelow hat hne
      · rw [Pairs.getElem?_of_ne hi]

end Entry

namespace Namespace

variable {φ : Type} {ns : Namespace φ} {p : Path} {e top : Entry φ} {first name : String}
  {rest : List String} {before after : List (String × Entry φ)} {position : List Nat} {f g : φ}

/-- A name leads to the first pair with it. -/
theorem split_of_global? (h : ns.global? first = some top) :
    ∃ before after, ns.globals = before ++ (first, top) :: after ∧
      ∀ pair ∈ before, pair.1 ≠ first := by
  obtain ⟨⟨name, e⟩, hfind, rfl⟩ := Option.map_eq_some_iff.mp h
  obtain ⟨hname, before, after, hsplit, hbefore⟩ := List.find?_eq_some_iff_append.mp hfind
  obtain rfl : name = first := by simpa using hname
  exact ⟨before, after, hsplit, fun pair hmem => by simpa using hbefore pair hmem⟩

/-- The first global with a name stands behind all globals before it. -/
theorem findIdx?_of_split (hsplit : ns.globals = before ++ (first, top) :: after)
    (hbefore : ∀ pair ∈ before, pair.1 ≠ first) :
    ns.globals.findIdx? (·.1 = first) = some before.length := by
  rw [hsplit]
  clear hsplit
  induction before with
  | nil => simp [List.findIdx?_cons]
  | cons pair before ih =>
    obtain ⟨hpair, hrest⟩ := List.forall_mem_cons.mp hbefore
    rw [List.cons_append, List.findIdx?_cons, ih hrest]
    simp [hpair]

/-- A global stands behind all globals before it. -/
theorem getElem?_of_split (hsplit : ns.globals = before ++ (first, top) :: after) :
    ns.globals[before.length]? = some (first, top) := by
  rw [hsplit, List.getElem?_append_right (Nat.le_refl _), Nat.sub_self, List.getElem?_cons_zero]

/-- The first name of a path leads to its global, and the other names on from there. -/
theorem position?_cons (hsplit : ns.globals = before ++ (first, top) :: after)
    (hbefore : ∀ pair ∈ before, pair.1 ≠ first) (rest : List String) :
    ns.position? ⟨first :: rest⟩ = (top.position? rest).map (before.length :: ·) := by
  simp only [position?, findIdx?_of_split hsplit hbefore, getElem?_of_split hsplit,
    Option.bind_some]

/-- A position begins with the index of the first name. -/
theorem split_of_position? (h : ns.position? ⟨first :: rest⟩ = some position) :
    ∃ before top after below, ns.global? first = some top ∧
      ns.globals = before ++ (first, top) :: after ∧ (∀ pair ∈ before, pair.1 ≠ first) ∧
      top.position? rest = some below ∧ position = before.length :: below := by
  cases hglobal : ns.global? first with
  | none =>
    have hnone : ns.globals.findIdx? (·.1 = first) = none := by
      rw [List.findIdx?_eq_none_iff]
      exact fun pair hmem => by
        simpa using List.find?_eq_none.mp (Option.map_eq_none_iff.mp hglobal) pair hmem
    simp [position?, hnone] at h
  | some top =>
    obtain ⟨before, after, hsplit, hbefore⟩ := split_of_global? hglobal
    rw [position?_cons hsplit hbefore] at h
    obtain ⟨below, hbelow, hsame⟩ := Option.map_eq_some_iff.mp h
    exact ⟨before, top, after, below, rfl, hsplit, hbefore, hbelow, hsame.symm⟩

/-- A path that leads somewhere leads to a position. -/
theorem position?_of_lookup? (h : ns.lookup? p = some e) :
    ∃ position, ns.position? p = some position ∧ ns.at? position = some e := by
  obtain ⟨segments⟩ := p
  cases segments with
  | nil => cases h
  | cons first rest =>
    obtain ⟨top, htop, hrest⟩ := Option.bind_eq_some_iff.mp h
    obtain ⟨before, after, hsplit, hbefore⟩ := split_of_global? htop
    rw [Entry.descend?_eq_at?] at hrest
    obtain ⟨below, hbelow, hat⟩ := Option.bind_eq_some_iff.mp hrest
    refine ⟨before.length :: below, ?_, ?_⟩
    · rw [position?_cons hsplit hbefore, hbelow]
      rfl
    · rw [at?, getElem?_of_split hsplit]
      exact hat

/-- A path with a position leads to what stands there. -/
theorem lookup?_of_position? (h : ns.position? p = some position) :
    ns.lookup? p = ns.at? position := by
  obtain ⟨segments⟩ := p
  cases segments with
  | nil => cases h
  | cons first rest =>
    obtain ⟨before, top, after, below, hglobal, hsplit, -, hbelow, rfl⟩ := split_of_position? h
    simp only [lookup?, hglobal, at?, getElem?_of_split hsplit, Option.bind_some,
      Entry.descend?_eq_at?, hbelow]

/-- The position of a longer path goes on from the position of its beginning. -/
theorem position?_append (hposition : ns.position? p = some position)
    (hat : ns.at? position = some e) (more : List String) :
    ns.position? ⟨p.segments ++ more⟩ = (e.position? more).map (position ++ ·) := by
  obtain ⟨segments⟩ := p
  cases segments with
  | nil => cases hposition
  | cons first rest =>
    obtain ⟨i, hi, hposition⟩ := Option.bind_eq_some_iff.mp hposition
    obtain ⟨pair, hpair, hposition⟩ := Option.bind_eq_some_iff.mp hposition
    obtain ⟨below, hbelow, rfl⟩ := Option.map_eq_some_iff.mp hposition
    rw [at?, hpair, Option.bind_some] at hat
    simp only [position?, List.cons_append, hi, hpair, Option.bind_some,
      Entry.position?_append hbelow hat, Option.map_map]
    rfl

/-- A node further down stands at the longer position. -/
theorem at?_append (hat : ns.at? position = some e) (more : List Nat) :
    ns.at? (position ++ more) = e.at? more := by
  cases position with
  | nil => cases hat
  | cons i position =>
    obtain ⟨pair, hpair, hbelow⟩ := Option.bind_eq_some_iff.mp hat
    rw [List.cons_append, at?, hpair, Option.bind_some, Entry.at?_append, hbelow, Option.bind_some]

/-- In a list sorted by name a new value takes the place of the one with its name. -/
theorem insertSorted_of_split {pairs : List (String × Entry φ)} {name : String}
    {old : Entry φ} (new : Entry φ) (hsplit : pairs = before ++ (name, old) :: after)
    (hsorted : pairs.Pairwise fun pair later => pair.1 < later.1) :
    Pairs.insertSorted name new pairs = before ++ (name, new) :: after := by
  subst hsplit
  induction before with
  | nil => rw [List.nil_append, Pairs.insertSorted, if_pos rfl, List.nil_append]
  | cons pair before ih =>
    obtain ⟨hpair, hrest⟩ := List.pairwise_cons.mp hsorted
    have hlt : pair.1 < name := hpair (name, old) (List.mem_append_right _ List.mem_cons_self)
    have hne : pair.1 ≠ name := fun h => String.lt_irrefl name (h ▸ hlt)
    rw [List.cons_append, Pairs.insertSorted, if_neg hne, if_neg (String.lt_asymm hlt), ih hrest,
      List.cons_append]

/-- A path with a position runs the function that stands there. -/
theorem Clear.runs [Callable φ] (h : ns.Clear) (hposition : ns.position? p = some position)
    (hat : ns.at? position = some (.function f)) : ns.Runs p position f := by
  obtain ⟨segments⟩ := p
  cases segments with
  | nil => cases hposition
  | cons first rest =>
    obtain ⟨before, top, after, below, hglobal, hsplit, -, hbelow, rfl⟩ :=
      split_of_position? hposition
    have hlookup : ns.lookup? ⟨first :: rest⟩ = some (.function f) :=
      (lookup?_of_position? hposition).trans hat
    rw [Namespace.at?, getElem?_of_split hsplit, Option.bind_some] at hat
    refine ⟨hposition, hlookup, fun args answer f' hcall => ?_⟩
    have hglobals : (ns.exchange ⟨first :: rest⟩ (.function f')).globals =
        before ++ (first, Entry.exchange (.function f') rest top) :: after := by
      simp only [Namespace.exchange, hglobal, Namespace.setGlobal]
      exact insertSorted_of_split _ hsplit h.sorted
    refine ⟨ns.exchange ⟨first :: rest⟩ (.function f'), ?_, ?_, ?_⟩
    · simp only [Namespace.invoke, hlookup, hcall]
    · rw [Namespace.at?, getElem?_of_split hglobals, Option.bind_some]
      exact Entry.at?_exchange hbelow _
    · intro other g hother
      cases other with
      | nil => rfl
      | cons i other =>
        rw [Namespace.at?, Namespace.at?]
        by_cases hi : i = before.length
        · subst hi
          rw [getElem?_of_split hglobals, getElem?_of_split hsplit]
          exact Entry.at?_exchange_function hbelow hat fun hsame => hother (by rw [hsame])
        · rw [hglobals, hsplit, Pairs.getElem?_of_ne hi]

/-- The way to a function goes over names that can stand between dots. -/
theorem Clear.isName_of_lookup? (h : ns.Clear) (hlookup : ns.lookup? p = some e)
    (hf : e.HasFunction) : ∀ name ∈ p.segments, Path.IsName name := by
  obtain ⟨segments⟩ := p
  cases segments with
  | nil => cases hlookup
  | cons first rest =>
    obtain ⟨top, htop, hrest⟩ := Option.bind_eq_some_iff.mp hlookup
    obtain ⟨hnames, hbelow⟩ := (h.global? htop).isName_of_descend? hrest hf
    exact List.forall_mem_cons.mpr ⟨h.named _ (mem_of_global? htop) hbelow, hnames⟩

/-- The top-level node at an index is what its name leads to. -/
theorem Clear.position?_of_getElem? (h : ns.Clear) {i : Nat}
    (hpair : ns.globals[i]? = some (first, top)) : ns.position? ⟨[first]⟩ = some [i] := by
  obtain ⟨hlt, hget⟩ := List.getElem?_eq_some_iff.mp hpair
  have hsplit : ns.globals = ns.globals.take i ++ (first, top) :: ns.globals.drop (i + 1) := by
    rw [← hget, ← List.drop_eq_getElem_cons hlt, List.take_append_drop]
  have hsorted := h.sorted
  rw [hsplit] at hsorted
  have hbefore : ∀ pair ∈ ns.globals.take i, pair.1 ≠ first := by
    intro pair hmem hsame
    have hpair := (List.pairwise_append.mp hsorted).2.2 pair hmem _ List.mem_cons_self
    exact String.lt_irrefl first (hsame ▸ hpair)
  rw [position?_cons hsplit hbefore, List.length_take_of_le (Nat.le_of_lt hlt)]
  rfl

/-- The snapshot of a node shows a function below it as the text of the path to this function. -/
theorem Clear.reference [Callable φ] (h : ns.Clear) {start : List Nat}
    (hstart : ns.position? p = some start) (hnode : ns.at? start = some e)
    (hf : e.at? position = some (.function f)) :
    ∃ text, (e.snapshot p.text).at? position = some (.remote text) ∧
      (Path.parse text).text = text ∧ ns.Runs (.parse text) (start ++ position) f := by
  have hlookup : ns.lookup? p = some e := (lookup?_of_position? hstart).trans hnode
  obtain ⟨names, hnames, hposition, hsnapshot⟩ := (h.lookup? hlookup).reference hf
  have hp := h.isName_of_lookup? hlookup (Entry.hasFunction_of_at? hf)
  have hne : p.segments ≠ [] := by
    intro hroot
    rw [Namespace.lookup?, hroot] at hlookup
    cases hlookup
  have hparse : Path.parse (Path.text ⟨p.segments ++ names⟩) = ⟨p.segments ++ names⟩ :=
    Path.parse_text (List.forall_mem_append.mpr ⟨hp, hnames⟩)
  refine ⟨Path.text ⟨p.segments ++ names⟩, ?_, congrArg Path.text hparse, ?_⟩
  · rw [hsnapshot]
    exact congrArg (fun text => some (Value.remote text)) (Path.foldl_text hne names)
  · rw [hparse]
    have hpath : ns.position? ⟨p.segments ++ names⟩ = some (start ++ position) := by
      rw [position?_append hstart hnode, hposition]
      rfl
    have hat : ns.at? (start ++ position) = some (.function f) := by
      rw [at?_append hnode, hf]
    exact h.runs hpath hat

/-- In a namespace that can come about, functions are reached through their references. Where a
snapshot shows a node with a function in it, it shows at the place of the function a reference whose
text is the path of this very function, so that a call there runs it and no other. And no function
is out of reach: wherever one stands, some path leads to it and reads as its reference. -/
theorem reference_runs [Callable φ] (h : ns.Reachable) :
    (∀ p v, ns.resolve p = .ok v →
      ∃ start, ns.position? p = some start ∧
        ∀ position f, ns.at? (start ++ position) = some (.function f) →
          ∃ text, v.at? position = some (.remote text) ∧
            ns.Runs (.parse text) (start ++ position) f) ∧
    ∀ position f, ns.at? position = some (.function f) →
      ∃ text, ns.resolve (.parse text) = .ok (.remote text) ∧
        ns.Runs (.parse text) position f := by
  constructor
  · intro p v hresolve
    rw [resolve] at hresolve
    cases hlookup : ns.lookup? p with
    | none =>
      rw [hlookup] at hresolve
      cases hresolve
    | some e =>
      rw [hlookup] at hresolve
      cases hresolve
      obtain ⟨start, hstart, hnode⟩ := position?_of_lookup? hlookup
      refine ⟨start, hstart, fun position f hf => ?_⟩
      rw [at?_append hnode] at hf
      obtain ⟨text, htext, -, hruns⟩ := h.clear.reference hstart hnode hf
      exact ⟨text, htext, hruns⟩
  · intro position f hf
    cases position with
    | nil => cases hf
    | cons i below =>
      obtain ⟨⟨first, top⟩, hpair, hbelow⟩ := Option.bind_eq_some_iff.mp hf
      have hstart := h.clear.position?_of_getElem? hpair
      have hnode : ns.at? [i] = some top := by
        rw [at?, hpair]
        rfl
      obtain ⟨text, -, htext, hruns⟩ := h.clear.reference hstart hnode hbelow
      refine ⟨text, ?_, hruns⟩
      simp only [resolve, hruns.found, Entry.snapshot, htext]

/-- A peer has stored a table that has one name twice, and a function was put under this name. -/
def doubled : Namespace Stock :=
  (empty.assign .root (.ofText "t") (.table [(.ofText "f", .boolean true),
    (.ofText "f", .boolean false)])).2 |>.register "t.f" (.count 0)

/-- The second of two pairs with the same name holds a counter. It is shown there as a reference,
and a call at the path that it names runs the counter. -/
theorem reference_runs_doubled :
    doubled.Reachable ∧
      doubled.resolve ⟨["t"]⟩ =
        .ok (.table [(.ofText "f", .boolean true), (.ofText "f", .remote "t.f")]) ∧
      doubled.at? [0, 1] = some (.function (.count 0)) ∧
      doubled.Runs (.parse "t.f") [0, 1] (.count 0) := by
  have hreachable : doubled.Reachable := .register (.assign .empty _ _ _) _ _
  have hresolve : doubled.resolve ⟨["t"]⟩ =
      .ok (.table [(.ofText "f", .boolean true), (.ofText "f", .remote "t.f")]) := rfl
  have hat : doubled.at? [0, 1] = some (.function (.count 0)) := rfl
  obtain ⟨start, hstart, hread⟩ := (reference_runs hreachable).1 _ _ hresolve
  obtain rfl : start = [0] := Option.some.inj (hstart.symm.trans rfl)
  obtain ⟨text, htext, hruns⟩ := hread [1] _ hat
  cases htext
  exact ⟨hreachable, hresolve, hat, hruns⟩

end Namespace

end RemoteCall
