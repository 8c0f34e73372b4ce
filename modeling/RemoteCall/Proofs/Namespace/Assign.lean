import RemoteCall.Namespace.Stock
import RemoteCall.Proofs.Namespace.Navigation

/-!
# Assignments

An assignment that succeeds is read back exactly as it was written, nested tables with their order
and their repeated keys included, and is seen on no path that parts from the way to it. This holds
in every namespace: the write picks the last pair with an equal key, the read picks the last pair
with the name, and for names these are the same pair.
-/

namespace RemoteCall

namespace Namespace

variable {φ : Type} {ns ns' : Namespace φ} {p q : Path} {key value : Value} {s : String}

/-- An assignment that succeeds sets or removes a global, or exchanges a table for the table with
the key set. -/
theorem eq_of_assign (h : ns.assign p key value = (.ok (), ns')) :
    (∃ s, p.segments = [] ∧ key.text? = some s ∧
      ns' = if (Entry.ofValue value : Entry φ).isNil then ns.eraseGlobal s
        else ns.setGlobal s (.ofValue value)) ∨
    ∃ pairs, ns.lookup? p = some (.table pairs) ∧
      ns' = ns.exchange p (.table (Entry.setPair pairs key (.ofValue value))) := by
  obtain ⟨segments⟩ := p
  cases segments with
  | nil =>
    cases hkey : key.text? with
    | none => simp [assign, Path.isRoot, hkey] at h
    | some s =>
      simp only [assign, Path.isRoot, List.isEmpty_nil, if_true, hkey, Prod.mk.injEq, true_and] at h
      exact .inl ⟨s, rfl, rfl, h.symm⟩
  | cons first rest =>
    simp only [assign, Path.isRoot, List.isEmpty_cons, Bool.false_eq_true, if_false] at h
    split at h
    · rename_i pairs hlookup
      exact .inr ⟨pairs, hlookup, (Prod.mk.inj h).2.symm⟩
    · cases h
    · cases h

/-- What was written stands at the path with the key's name added. -/
theorem lookup?_assign_self (h : ns.assign p key value = (.ok (), ns')) (hkey : key.text? = some s)
    (hvalue : value ≠ .nil) :
    ns'.lookup? ⟨p.segments ++ [s]⟩ = some (.ofValue value) := by
  have hnil : (Entry.ofValue value : Entry φ).isNil = false :=
    Bool.eq_false_iff.mpr fun hnil => hvalue (Entry.isNil_ofValue.mp hnil)
  obtain ⟨s', hroot, hs', rfl⟩ | ⟨pairs, hlookup, rfl⟩ := eq_of_assign h
  · cases hkey.symm.trans hs'
    rw [hroot, hnil, if_neg Bool.false_ne_true]
    simp only [lookup?, List.nil_append, global?_setGlobal, if_true]
    rfl
  · rw [lookup?_exchange hlookup, Entry.descend?, Entry.member?_setPair_self hkey hnil]
    rfl

/-- A write is not seen on a path that neither leads towards the table nor comes from the name of
the key. -/
theorem lookup?_assign_of_apart (h : ns.assign p key value = (.ok (), ns'))
    (habove : ¬ q.segments <+: p.segments)
    (hbelow : ∀ s, key.text? = some s → ¬ p.segments ++ [s] <+: q.segments) :
    ns'.lookup? q = ns.lookup? q := by
  obtain ⟨s, hroot, hs, rfl⟩ | ⟨pairs, hlookup, rfl⟩ := eq_of_assign h
  · obtain ⟨names⟩ := q
    cases names with
    | nil => exact absurd List.nil_prefix habove
    | cons name names =>
      have hname : s ≠ name := by
        rintro rfl
        have hprefix : p.segments ++ [s] <+: s :: names := by
          rw [hroot, List.nil_append]
          exact ⟨names, rfl⟩
        exact hbelow s hs hprefix
      split <;> simp [lookup?, hname]
  · by_cases hprefix : p.segments <+: q.segments
    · obtain ⟨more, hmore⟩ := hprefix
      cases more with
      | nil => exact absurd ⟨[], by rw [List.append_nil, ← hmore, List.append_nil]⟩ habove
      | cons name more =>
        have hname : Value.isNamed name key = false := by
          rw [Bool.eq_false_iff, Ne, Value.isNamed_iff, ← Value.text?_eq_some]
          intro hkey
          exact hbelow name hkey ⟨more, by rw [List.append_assoc]; exact hmore⟩
        have hq : q = ⟨p.segments ++ name :: more⟩ := by rw [hmore]
        rw [hq, lookup?_exchange hlookup, lookup?_append hlookup, Entry.descend?, Entry.descend?,
          Entry.member?_setPair_of_not_named hname]
    · exact lookup?_exchange_of_apart habove hprefix ns _

/-- A successful write is read back and touches nothing else. Under a key that is text, the value
stands at the path with that name added, exactly as it was given, and every path that leads neither
towards the table nor from that name on finds what it found before, functions included. Under any
other key, every path that does not lead towards the table does. -/
theorem resolve_assign (ns ns' : Namespace φ) (p : Path) (key value : Value)
    (hvalue : value ≠ .nil) (h : ns.assign p key value = (.ok (), ns')) :
    (∀ s, key.text? = some s →
      ns'.resolve ⟨p.segments ++ [s]⟩ = .ok value ∧
      ∀ q : Path, ¬ q.segments <+: p.segments → ¬ p.segments ++ [s] <+: q.segments →
        ns'.lookup? q = ns.lookup? q ∧ ns'.resolve q = ns.resolve q) ∧
    (key.text? = none →
      ∀ q : Path, ¬ q.segments <+: p.segments →
        ns'.lookup? q = ns.lookup? q ∧ ns'.resolve q = ns.resolve q) := by
  constructor
  · intro s hkey
    constructor
    · rw [resolve, lookup?_assign_self h hkey hvalue]
      exact congrArg _ (Entry.snapshot_ofValue _ value)
    · intro q habove hbelow
      have hsame : ns'.lookup? q = ns.lookup? q := by
        refine lookup?_assign_of_apart h habove fun s' hs' => ?_
        cases hkey.symm.trans hs'
        exact hbelow
      exact ⟨hsame, resolve_congr hsame⟩
  · intro hkey q habove
    have hsame : ns'.lookup? q = ns.lookup? q := by
      refine lookup?_assign_of_apart h habove fun s hs => ?_
      cases hkey.symm.trans hs
    exact ⟨hsame, resolve_congr hsame⟩

/-- A table in which one name stands twice, a byte string that is no text stands between, and a
function was added. -/
def crowded : Namespace Stock :=
  empty.insert "t" (.table [(.ofText "k", .boolean true), (.string [0xFF], .boolean true),
    (.ofText "k", .boolean false)]) |>.register "t.f" .echo

/-- A table with a repeated name is written over the last of two equal names, comes back as it is,
and leaves the function beside it alone. -/
theorem resolve_assign_crowded :
    ∃ ns', crowded.assign ⟨["t"]⟩ (.ofText "k")
        (.table [(.ofText "a", .nil), (.ofText "a", .boolean true)]) = (.ok (), ns') ∧
      ns'.resolve ⟨["t", "k"]⟩ = .ok (.table [(.ofText "a", .nil), (.ofText "a", .boolean true)]) ∧
      ns'.lookup? ⟨["t", "f"]⟩ = crowded.lookup? ⟨["t", "f"]⟩ := by
  have hassign : ∃ ns', crowded.assign ⟨["t"]⟩ (.ofText "k")
      (.table [(.ofText "a", .nil), (.ofText "a", .boolean true)]) = (.ok (), ns') := ⟨_, rfl⟩
  obtain ⟨ns', hassign⟩ := hassign
  have hself := (resolve_assign crowded ns' _ _ _ (by simp) hassign).1 "k" (Value.text?_ofText "k")
  have hbeside := hself.2 ⟨["t", "f"]⟩ (by decide) (by decide)
  exact ⟨ns', hassign, hself.1, hbeside.1⟩

end Namespace

end RemoteCall
