import RemoteCall.Proofs.Namespace.References
import RemoteCall.Proofs.Namespace.Snapshot

/-!
# Placing values and functions

Values and functions are put at a path by the owner of a namespace, whatever is on the way: what is
missing or no table becomes one. Level by level this is storing under a name, so that what a table
keeps under its other names is kept, and where the way is there already, placing at its end is the
assignment that a peer could make. The two part at the top level, where a nil that is placed is kept
and a nil that is assigned removes the name.
-/

namespace RemoteCall

namespace Entry

variable {φ : Type} {e new old : Entry φ} {pairs before after : List (Value × Entry φ)}
  {key : Value} {name : String} {names more : List String}

/-- Storing under a name that is there already changes the last child with it. -/
theorem setPair_of_lastAt (hlast : Pairs.LastAt (Value.isNamed name) pairs before key old after)
    (hnew : new.isNil = false) :
    setPair pairs (.ofText name) new = before ++ (key, new) :: after := by
  have hsame : (Value.ofText name).same = Value.isNamed name := funext (Value.same_ofText name)
  rw [setPair, hnew, hsame, hlast.replaceLast?]
  rfl

/-- Placing a node stores under each name on the way what is placed below it. -/
theorem place_cons (new : Entry φ) (name : String) (rest : List String) (e : Entry φ) :
    place new (name :: rest) e = .table (setPair e.children (.ofText name)
      (place new rest ((e.member? name).getD (.table [])))) := by
  cases rest with
  | nil => rfl
  | cons next rest =>
    have hsame : (Value.ofText name).same = Value.isNamed name := funext (Value.same_ofText name)
    have htable : (place new (next :: rest) ((e.member? name).getD (.table []))).isNil = false := by
      cases rest <;> rfl
    rw [place_cons_cons, setPair, htable, hsame]
    rfl

/-- No nil comes of placing, unless it is nil that is placed right here. -/
theorem isNil_place (h : names = [] → new.isNil = false) (e : Entry φ) :
    (place new names e).isNil = false := by
  cases names with
  | nil => exact h rfl
  | cons name rest =>
    rw [place_cons]
    rfl

/-- The child on the way is the one that something was placed in. -/
theorem member?_place_self (name : String) (h : names = [] → new.isNil = false) (e : Entry φ) :
    (place new (name :: names) e).member? name =
      some (place new names ((e.member? name).getD (.table []))) := by
  rw [place_cons]
  exact member?_setPair_self (Value.text?_ofText name) (isNil_place h _)

/-- The children beside the way stay. -/
theorem member?_place_of_ne {other : String} (h : name ≠ other) (new e : Entry φ)
    (rest : List String) : (place new (name :: rest) e).member? other = e.member? other := by
  have hkey : Value.isNamed other (.ofText name) = false := by
    rw [Value.isNamed_ofText, decide_eq_false h]
  rw [place_cons]
  exact member?_setPair_of_not_named hkey

/-- At the end of the names stands what was placed, unless it is nil. -/
theorem descend?_place (h : new.isNil = false) (names : List String) (e : Entry φ) :
    descend? names (place new names e) = some new := by
  induction names generalizing e with
  | nil => rfl
  | cons name names ih => rw [descend?, member?_place_self name fun _ => h, Option.bind_some, ih]

/-- Everything on the way is a table. -/
theorem descend?_place_above (new : Entry φ) (names : List String) (name : String)
    (more : List String) (e : Entry φ) :
    ∃ pairs, descend? names (place new (names ++ name :: more) e) = some (.table pairs) := by
  induction names generalizing e with
  | nil =>
    rw [List.nil_append, place_cons]
    exact ⟨_, rfl⟩
  | cons first names ih =>
    rw [List.cons_append, descend?, member?_place_self first (by simp), Option.bind_some]
    exact ih _

/-- Nothing is in a new table, as there was nothing without it. -/
theorem descend?_getD_table (hmore : more ≠ []) (child : Option (Entry φ)) :
    descend? more (child.getD (.table [])) = child.bind (descend? more) := by
  cases child with
  | some child => rfl
  | none =>
    cases more with
    | nil => exact absurd rfl hmore
    | cons name more => rfl

/-- What lies on neither side of the place stays. -/
theorem descend?_place_of_apart (habove : ¬ more <+: names) (hbelow : ¬ names <+: more)
    (new e : Entry φ) : descend? more (place new names e) = descend? more e := by
  induction names generalizing more e with
  | nil => exact absurd List.nil_prefix hbelow
  | cons name names ih =>
    cases more with
    | nil => exact absurd List.nil_prefix habove
    | cons other more =>
      by_cases hname : name = other
      · subst hname
        have habove' : ¬ more <+: names := fun h => habove ((List.prefix_cons_inj name).mpr h)
        have hbelow' : ¬ names <+: more := fun h => hbelow ((List.prefix_cons_inj name).mpr h)
        have hfurther : names = [] → new.isNil = false := fun hnil =>
          absurd (hnil ▸ List.nil_prefix) hbelow'
        have hmore : more ≠ [] := fun hnil => habove' (hnil ▸ List.nil_prefix)
        rw [descend?, descend?, member?_place_self name hfurther, Option.bind_some,
          ih habove' hbelow', descend?_getD_table hmore]
      · rw [descend?, descend?, member?_place_of_ne hname]

/-- In a table that is there already, placing is storing under the last name. -/
theorem place_eq_exchange (h : descend? names e = some (.table pairs)) (new : Entry φ)
    (leaf : String) :
    place new (names ++ [leaf]) e =
      exchange (.table (setPair pairs (.ofText leaf) new)) names e := by
  induction names generalizing e with
  | nil =>
    cases h
    rfl
  | cons name names ih =>
    obtain ⟨child, hmember, hrest⟩ := Option.bind_eq_some_iff.mp h
    obtain ⟨before, key, after, hlast⟩ := lastAt_of_member? hmember
    have htable : (place new (names ++ [leaf]) child).isNil = false := isNil_place (by simp) child
    rw [exchange_cons hlast, List.cons_append, place_cons, hmember, Option.getD_some,
      setPair_of_lastAt hlast htable, ih hrest]

end Entry

namespace Namespace

variable {φ : Type} {ns : Namespace φ} {p q : Path} {new : Entry φ}

/-- At the path stands what was placed, unless it is nil. -/
theorem lookup?_place (hp : p.isRoot = false) (h : new.isNil = false) :
    (ns.place p new).lookup? p = some new := by
  obtain ⟨segments⟩ := p
  cases segments with
  | nil => cases hp
  | cons first rest =>
    simp only [place, lookup?, global?_setGlobal, if_true, Option.bind_some]
    exact Entry.descend?_place h rest _

/-- Everything on the way is a table. -/
theorem lookup?_place_above (ns : Namespace φ) (hq : q.isRoot = false) (name : String)
    (more : List String) (new : Entry φ) :
    ∃ pairs, (ns.place ⟨q.segments ++ name :: more⟩ new).lookup? q = some (.table pairs) := by
  obtain ⟨segments⟩ := q
  cases segments with
  | nil => cases hq
  | cons first rest =>
    simp only [place, lookup?, List.cons_append, global?_setGlobal, if_true, Option.bind_some]
    exact Entry.descend?_place_above new rest name more _

/-- What lies on neither side of the place stays. -/
theorem lookup?_place_of_apart (habove : ¬ q.segments <+: p.segments)
    (hbelow : ¬ p.segments <+: q.segments) (ns : Namespace φ) (new : Entry φ) :
    (ns.place p new).lookup? q = ns.lookup? q := by
  obtain ⟨names⟩ := p
  obtain ⟨more⟩ := q
  cases names with
  | nil => exact absurd List.nil_prefix hbelow
  | cons name names =>
    cases more with
    | nil => exact absurd List.nil_prefix habove
    | cons other more =>
      simp only [place, lookup?, global?_setGlobal]
      by_cases hname : name = other
      · subst hname
        have habove' : ¬ more <+: names := fun h => habove ((List.prefix_cons_inj name).mpr h)
        have hbelow' : ¬ names <+: more := fun h => hbelow ((List.prefix_cons_inj name).mpr h)
        have hmore : more ≠ [] := fun hnil => habove' (hnil ▸ List.nil_prefix)
        rw [if_pos rfl, Option.bind_some, Entry.descend?_place_of_apart habove' hbelow',
          Entry.descend?_getD_table hmore]
      · rw [if_neg hname]

/-- The path stands for one place: everything above it is a table now, and beside it nothing has
changed. -/
structure PlacedAt (ns : Namespace φ) (p : Path) (ns' : Namespace φ) : Prop where
  above : ∀ q : Path, q.isRoot = false → q.segments <+: p.segments → q ≠ p →
    ∃ pairs, ns'.resolve q = .ok (.table pairs)
  beside : ∀ q : Path, ¬ q.segments <+: p.segments → ¬ p.segments <+: q.segments →
    ns'.lookup? q = ns.lookup? q ∧ ns'.resolve q = ns.resolve q

/-- Placing a node gives its path one place. -/
theorem placedAt_place (ns : Namespace φ) (p : Path) (new : Entry φ) :
    ns.PlacedAt p (ns.place p new) := by
  constructor
  · rintro q hq ⟨more, hmore⟩ hne
    cases more with
    | nil => exact absurd (congrArg Path.mk (hmore ▸ (List.append_nil _).symm)) hne
    | cons name more =>
      obtain rfl : p = ⟨q.segments ++ name :: more⟩ := congrArg Path.mk hmore.symm
      obtain ⟨pairs, hlookup⟩ := ns.lookup?_place_above hq name more new
      rw [resolve, hlookup]
      exact ⟨_, rfl⟩
  · intro q habove hbelow
    have hsame := lookup?_place_of_apart habove hbelow ns new
    exact ⟨hsame, resolve_congr hsame⟩

/-! ### Placing and assigning -/

variable {pairs : List (Value × Entry φ)} {v : Value}

/-- An assignment in a table places the value below the table. -/
theorem assign_eq_place (h : ns.lookup? q = some (.table pairs)) (leaf : String) (v : Value) :
    ns.assign q (.ofText leaf) v =
      (.ok (), ns.place ⟨q.segments ++ [leaf]⟩ (.ofValue v)) := by
  obtain ⟨segments⟩ := q
  cases segments with
  | nil => cases h
  | cons first rest =>
    obtain ⟨top, htop, hrest⟩ := Option.bind_eq_some_iff.mp h
    have hplace := Entry.place_eq_exchange hrest (.ofValue v) leaf
    simp only [assign, Path.isRoot, List.isEmpty_cons, Bool.false_eq_true, if_false, h, exchange,
      place, List.cons_append, htop, Option.getD_some, hplace]

/-- So does an assignment at the top level, unless the value is nil. -/
theorem assign_root_eq_place (hv : v ≠ .nil) (leaf : String) :
    ns.assign .root (.ofText leaf) v = (.ok (), ns.place ⟨[leaf]⟩ (.ofValue v)) := by
  have hnil : (Entry.ofValue v : Entry φ).isNil = false := Entry.isNil_ofValue_of_ne hv
  simp only [assign, Path.isRoot, Path.root, List.isEmpty_nil, if_true, Value.text?_ofText, hnil,
    Bool.false_eq_true, if_false]
  rfl

/-- Nil is read at the top level where it was placed. -/
theorem resolve_place_nil (ns : Namespace φ) (leaf : String) :
    (ns.place ⟨[leaf]⟩ (.ofValue .nil)).resolve ⟨[leaf]⟩ = .ok .nil := by
  simp only [resolve, lookup?, place, global?_setGlobal, if_true]
  rfl

/-- Nothing is read at the top level where nil was assigned. -/
theorem resolve_assign_root_nil (ns : Namespace φ) (leaf : String) :
    (ns.assign .root (.ofText leaf) .nil).2.resolve ⟨[leaf]⟩ = .error (.ofMissing ⟨[leaf]⟩) := by
  have hnil : (Entry.ofValue .nil : Entry φ).isNil = true := rfl
  simp only [assign, Path.isRoot, Path.root, List.isEmpty_nil, if_true, Value.text?_ofText, hnil,
    resolve, lookup?, global?_eraseGlobal, Option.bind_none]

/-- In a plain tree, only a table reads as a table. -/
theorem Plain.lookup?_of_resolve {vs : List (Value × Value)} (h : ns.Plain)
    (hread : ns.resolve q = .ok (.table vs)) : ∃ pairs, ns.lookup? q = some (.table pairs) := by
  rw [resolve] at hread
  cases hlookup : ns.lookup? q with
  | none =>
    rw [hlookup] at hread
    cases hread
  | some e =>
    rw [hlookup] at hread
    cases h.lookup? hlookup with
    | value hv => exact absurd (Except.ok.inj hread) (hv vs)
    | function f => cases hread
    | table children => exact ⟨_, rfl⟩

/-- Where the path above is there, placing and assigning a value differ just for a nil at the top
level. -/
theorem resolve_insert_eq_assign_iff {text leaf : String} {parent : Path} (v : Value)
    (hplain : ns.Plain) (htext : Path.parse text = ⟨parent.segments ++ [leaf]⟩)
    (hparent : parent.isRoot = true ∨ ∃ vs, ns.resolve parent = .ok (.table vs)) :
    (ns.assign parent (.ofText leaf) v).1 = .ok () ∧
      ((∀ q, (ns.insert text v).resolve q =
        (ns.assign parent (.ofText leaf) v).2.resolve q) ↔ (parent.isRoot = true → v ≠ .nil)) := by
  rw [insert, htext]
  rcases hparent with hroot | ⟨vs, hread⟩
  · obtain rfl : parent = .root := congrArg Path.mk (List.isEmpty_iff.mp hroot)
    by_cases hv : v = .nil
    · subst hv
      refine ⟨?_, fun hsame => ?_, fun hne => absurd rfl (hne rfl)⟩
      · simp only [assign, Path.isRoot, Path.root, List.isEmpty_nil, if_true, Value.text?_ofText]
      · have hleaf := hsame ⟨[leaf]⟩
        rw [resolve_assign_root_nil] at hleaf
        cases (ns.resolve_place_nil leaf).symm.trans hleaf
    · rw [assign_root_eq_place hv]
      exact ⟨rfl, fun _ _ => hv, fun _ _ => rfl⟩
  · obtain ⟨pairs, hlookup⟩ := hplain.lookup?_of_resolve hread
    rw [assign_eq_place hlookup]
    refine ⟨rfl, fun _ hroot => ?_, fun _ _ => rfl⟩
    exact absurd (List.isEmpty_iff.mp hroot) (segments_ne_nil_of_lookup? hlookup)

/-- In a namespace that can come about, values and functions are placed at the path that the text
names and nowhere else. The empty path names no place. At any other the value is read back, unless
it is nil, and the function is read as the reference to it and runs when it is called there; above
the place there are tables, whatever there was before, and paths beside it lead where they led.
Where the path above is there already, the value could as well have been assigned, unless it is a
nil at the top level: this is kept when it is placed and removes the name when it is assigned. -/
theorem insert_register_placed [Callable φ] (h : ns.Reachable) (text : String) :
    ((Path.parse text).isRoot = true →
      (∀ v, ns.insert text v = ns) ∧ ∀ f, ns.register text f = ns) ∧
    ((Path.parse text).isRoot = false →
      (∀ v, ns.PlacedAt (.parse text) (ns.insert text v) ∧
        (v ≠ .nil → (ns.insert text v).get? text = some v)) ∧
      ∀ f, ns.PlacedAt (.parse text) (ns.register text f) ∧
        (ns.register text f).get? text = some (.remote (Path.parse text).text) ∧
        ∃ position, (ns.register text f).Runs (.parse text) position f) ∧
    ∀ (parent : Path) (leaf : String) (v : Value), Path.parse text = ⟨parent.segments ++ [leaf]⟩ →
      (parent.isRoot = true ∨ ∃ vs, ns.resolve parent = .ok (.table vs)) →
        (ns.assign parent (.ofText leaf) v).1 = .ok () ∧
        ((∀ q, (ns.insert text v).resolve q = (ns.assign parent (.ofText leaf) v).2.resolve q) ↔
          (parent.isRoot = true → v ≠ .nil)) := by
  refine ⟨fun hroot => ?_, fun hpath => ⟨fun v => ⟨ns.placedAt_place _ _, fun hv => ?_⟩,
    fun f => ⟨ns.placedAt_place _ _, ?_⟩⟩, fun parent leaf v htext hparent =>
    resolve_insert_eq_assign_iff v h.plain htext hparent⟩
  · have hnone (new : Entry φ) : ns.place (.parse text) new = ns := by
      simp only [place, List.isEmpty_iff.mp hroot]
    exact ⟨fun v => hnone _, fun f => hnone _⟩
  · rw [get?, resolve, insert, lookup?_place hpath (Entry.isNil_ofValue_of_ne hv)]
    exact congrArg some (Entry.snapshot_ofValue _ v)
  · have hlookup : (ns.register text f).lookup? (.parse text) = some (.function f) :=
      lookup?_place hpath rfl
    obtain ⟨position, hposition, hat⟩ := position?_of_lookup? hlookup
    have hclear : (ns.register text f).Clear := (h.register text f).clear
    refine ⟨?_, position, hclear.runs hposition hat⟩
    rw [get?, resolve, hlookup]
    rfl

/-- A boolean, and a function in a table. -/
def sparse : Namespace Stock := empty.insert "a" (.boolean true) |>.register "t.f" .echo

/-- A value is placed below the boolean, which gives way to a table, and one below the function,
which does too; beside them nothing has changed. In the table the value could have been assigned. -/
theorem insert_register_placed_sparse :
    (sparse.insert "a..b" (.ofText "x")).get? "a..b" = some (.ofText "x") ∧
    (∃ vs, (sparse.insert "a..b" (.ofText "x")).resolve ⟨["a"]⟩ = .ok (.table vs)) ∧
    (sparse.insert "a..b" (.ofText "x")).resolve ⟨["t", "f"]⟩ = .ok (.remote "t.f") ∧
    (∃ position, (sparse.register "t.f.g" (.count 0)).Runs (.parse "t.f.g") position (.count 0)) ∧
    ∀ q, (sparse.insert "t.g" .nil).resolve q =
      (sparse.assign ⟨["t"]⟩ (.ofText "g") .nil).2.resolve q := by
  have hreachable : sparse.Reachable := .register (.insert .empty _ _) _ _
  obtain ⟨hplaced, hread⟩ := ((insert_register_placed hreachable "a..b").2.1 rfl).1 (.ofText "x")
  obtain ⟨-, -, hruns⟩ := ((insert_register_placed hreachable "t.f.g").2.1 rfl).2 (.count 0)
  have hassign := (insert_register_placed hreachable "t.g").2.2 ⟨["t"]⟩ "g" .nil rfl
    (.inr ⟨_, rfl⟩)
  refine ⟨hread nofun, hplaced.above ⟨["a"]⟩ rfl ⟨["b"], rfl⟩ (by decide), ?_, hruns,
    hassign.2.mpr nofun⟩
  exact (hplaced.beside ⟨["t", "f"]⟩ (by decide) (by decide)).2

/-- A nil that is placed at the top level is read there, and one that is assigned is not. -/
theorem insert_nil_leaves_name :
    (empty : Namespace Stock).Reachable ∧ Path.parse "g" = ⟨Path.root.segments ++ ["g"]⟩ ∧
      ((empty : Namespace Stock).insert "g" .nil).resolve ⟨["g"]⟩ = .ok .nil ∧
      ((empty : Namespace Stock).assign .root (.ofText "g") .nil).2.resolve ⟨["g"]⟩ =
        .error (.ofMissing ⟨["g"]⟩) :=
  ⟨.empty, rfl, rfl, rfl⟩

end Namespace

end RemoteCall
