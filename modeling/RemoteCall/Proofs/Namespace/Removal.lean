import RemoteCall.Proofs.Namespace.Assign
import RemoteCall.Proofs.Namespace.Reach

/-!
# Removals

Assigning nil removes a pair, and a table may have several with one key: the copies of a name. The
last copy is the one that a path finds and the one that goes, so behind it the copy before it comes
to light. A name is gone when nil was assigned as often as there were copies of it, and at the top
level, where there is one at most, it is gone at once.
-/

namespace RemoteCall

namespace Pairs

variable {α β : Type} {chosen : α → Bool} {pairs before after : List (α × β)} {key : α} {value : β}

/-- The values of all pairs whose key is chosen, in order. -/
def copies (chosen : α → Bool) (pairs : List (α × β)) : List β :=
  (pairs.filter fun pair => chosen pair.1).map Prod.snd

/-- Where no key is chosen there are no copies. -/
theorem copies_of_none (h : ∀ pair ∈ pairs, chosen pair.1 = false) : copies chosen pairs = [] := by
  rw [copies, List.filter_eq_nil_iff.mpr fun pair hpair => by simp [h pair hpair], List.map_nil]

/-- The last copy comes after the copies before it. -/
theorem LastAt.copies_eq (h : LastAt chosen pairs before key value after) :
    copies chosen pairs = copies chosen before ++ [value] := by
  have hafter : copies chosen after = [] := copies_of_none h.later
  rw [h.split, copies, List.filter_append, List.filter_cons, if_pos h.isChosen, List.map_append,
    List.map_cons]
  exact congrArg (copies chosen before ++ value :: ·) hafter

/-- The lookup finds the last copy. -/
theorem findLast?_eq_getLast? (chosen : α → Bool) (pairs : List (α × β)) :
    findLast? chosen pairs = (copies chosen pairs).getLast? := by
  obtain hnone | ⟨before, key, value, after, hlast⟩ := none_or_lastAt chosen pairs
  · rw [findLast?_of_none hnone, copies_of_none hnone, List.getLast?_nil]
  · rw [hlast.findLast?, hlast.copies_eq, List.getLast?_concat]

/-- Removing takes the last copy away. -/
theorem copies_eraseLast? (chosen : α → Bool) (pairs : List (α × β)) :
    copies chosen ((eraseLast? chosen pairs).getD pairs) = (copies chosen pairs).dropLast := by
  obtain hnone | ⟨before, key, value, after, hlast⟩ := none_or_lastAt chosen pairs
  · rw [eraseLast?_of_none hnone, Option.getD_none, copies_of_none hnone, List.dropLast_nil]
  · have hafter : copies chosen after = [] := copies_of_none hlast.later
    rw [hlast.eraseLast?, Option.getD_some, hlast.copies_eq, List.dropLast_concat, copies,
      List.filter_append, List.map_append]
    exact (congrArg (copies chosen before ++ ·) hafter).trans (List.append_nil _)

end Pairs

namespace Entry

variable {φ : Type}

/-- All children with this name, in order. -/
def copies (name : String) (e : Entry φ) : List (Entry φ) :=
  Pairs.copies (Value.isNamed name) e.children

/-- Looking up a name finds its last copy. -/
theorem member?_eq_getLast? (name : String) (e : Entry φ) :
    e.member? name = (e.copies name).getLast? :=
  Pairs.findLast?_eq_getLast? _ _

/-- Storing nil under a name takes the last child with this name away. -/
theorem copies_setPair_nil (name : String) (pairs : List (Value × Entry φ)) :
    (table (setPair pairs (.ofText name) (.ofValue .nil))).copies name =
      ((table pairs).copies name).dropLast := by
  have hsame : (Value.ofText name).same = Value.isNamed name := funext (Value.same_ofText name)
  rw [setPair, if_pos (isNil_ofValue.mpr rfl), hsame]
  exact Pairs.copies_eraseLast? _ _

end Entry

namespace Namespace

variable {φ : Type} {ns ns' : Namespace φ} {p : Path} {s : String}

/-- All nodes under the name in the table at the path, in order; the empty path is the table of the
globals, which has each name once. -/
def copies (ns : Namespace φ) (p : Path) (s : String) : List (Entry φ) :=
  if p.isRoot then (ns.global? s).toList else ((ns.lookup? p).map (Entry.copies s)).getD []

/-- The namespace after nil was assigned so many times to the name in the table at the path. -/
def remove (ns : Namespace φ) (p : Path) (s : String) : Nat → Namespace φ
  | 0 => ns
  | count + 1 => ((ns.remove p s count).assign p (.ofText s) .nil).2

/-- Behind a path that is not empty a name leads on from the node at the path. -/
theorem lookup?_append_of_not_root (hp : p.isRoot = false) (more : List String) :
    ns.lookup? ⟨p.segments ++ more⟩ = (ns.lookup? p).bind (Entry.descend? more) := by
  obtain ⟨segments⟩ := p
  cases segments with
  | nil => cases hp
  | cons first rest =>
    simp only [lookup?, List.cons_append, Option.bind_assoc]
    exact congrArg _ (funext fun e => Entry.descend?_append rest more e)

/-- A path finds the last copy of its last name. -/
theorem lookup?_append_name (ns : Namespace φ) (p : Path) (s : String) :
    ns.lookup? ⟨p.segments ++ [s]⟩ = (ns.copies p s).getLast? := by
  cases hp : p.isRoot with
  | true =>
    rw [copies, if_pos hp, List.isEmpty_iff.mp hp]
    cases hglobal : ns.global? s <;> simp [lookup?, hglobal, Entry.descend?]
  | false =>
    rw [copies, if_neg (by simp [hp]), lookup?_append_of_not_root hp]
    cases ns.lookup? p with
    | none => rfl
    | some e =>
      rw [Option.bind_some, Option.map_some, Option.getD_some, ← Entry.member?_eq_getLast?,
        Entry.descend?]
      cases e.member? s <;> rfl

/-- Nothing is found exactly when there is no copy. -/
theorem resolve_eq_missing_iff (ns : Namespace φ) (p : Path) (s : String) :
    ns.resolve ⟨p.segments ++ [s]⟩ = .error (.ofMissing ⟨p.segments ++ [s]⟩) ↔
      ns.copies p s = [] := by
  rw [resolve, lookup?_append_name, ← List.getLast?_eq_none_iff]
  cases (ns.copies p s).getLast? <;> simp

/-- An assignment of nil takes the last copy away. -/
theorem copies_assign_nil (h : ns.assign p (.ofText s) .nil = (.ok (), ns')) :
    ns'.copies p s = (ns.copies p s).dropLast := by
  obtain ⟨s', hroot, hs', rfl⟩ | ⟨pairs, hlookup, rfl⟩ := eq_of_assign h
  · cases (Value.text?_ofText s).symm.trans hs'
    have hp : p.isRoot = true := List.isEmpty_iff.mpr hroot
    rw [if_pos (Entry.isNil_ofValue.mpr rfl), copies, copies, if_pos hp, if_pos hp,
      global?_eraseGlobal, if_pos rfl]
    cases ns.global? s <;> rfl
  · have hp : p.isRoot = false := by
      rw [Bool.eq_false_iff, Ne, Path.isRoot, List.isEmpty_iff]
      intro hroot
      rw [lookup?, hroot] at hlookup
      cases hlookup
    have hself := lookup?_exchange hlookup
      (.table (Entry.setPair pairs (.ofText s) (.ofValue .nil))) []
    rw [List.append_nil] at hself
    rw [copies, copies, if_neg (by simp [hp]), if_neg (by simp [hp]), hself, hlookup]
    exact Entry.copies_setPair_nil s pairs

/-- The empty path and the path of a table can be assigned to, whatever the value. -/
theorem assign_eq_ok_iff {key value : Value} (hkey : key.text? = some s) :
    (ns.assign p key value).1 = .ok () ↔
      p.segments = [] ∨ ∃ pairs, ns.lookup? p = some (.table pairs) := by
  obtain ⟨segments⟩ := p
  cases segments with
  | nil => simp [assign, Path.isRoot, hkey]
  | cons first rest =>
    simp only [assign, Path.isRoot, List.isEmpty_cons, Bool.false_eq_true, if_false,
      List.cons_ne_nil, false_or]
    cases ns.lookup? ⟨first :: rest⟩ with
    | none => simp
    | some e => cases e <;> simp

/-- What can be assigned to can be assigned to again. -/
theorem assign_again {key value key' value' : Value} (hkey' : key'.text? = some s)
    (h : ns.assign p key value = (.ok (), ns')) : (ns'.assign p key' value').1 = .ok () := by
  rw [assign_eq_ok_iff hkey']
  obtain ⟨_, hroot, -, -⟩ | ⟨pairs, hlookup, rfl⟩ := eq_of_assign h
  · exact .inl hroot
  · have hself := lookup?_exchange hlookup (.table (Entry.setPair pairs key (.ofValue value))) []
    rw [List.append_nil] at hself
    exact .inr ⟨_, hself⟩

/-- However often nil is assigned, it can be assigned once more. -/
theorem assign_remove (h : (ns.assign p (.ofText s) .nil).1 = .ok ()) (count : Nat) :
    ((ns.remove p s count).assign p (.ofText s) .nil).1 = .ok () := by
  induction count with
  | zero => exact h
  | succ count ih =>
    exact assign_again (Value.text?_ofText s) (Prod.ext ih rfl)

/-- Each assignment of nil takes one copy away, the last one first. -/
theorem copies_remove (h : (ns.assign p (.ofText s) .nil).1 = .ok ()) (count : Nat) :
    (ns.remove p s count).copies p s = (ns.copies p s).take ((ns.copies p s).length - count) := by
  induction count with
  | zero => exact (List.take_length).symm
  | succ count ih =>
    rw [remove, copies_assign_nil (Prod.ext (assign_remove h count) rfl), ih,
      List.dropLast_eq_take, List.take_take, List.length_take]
    congr 1
    omega

/-- After an assignment of nil that succeeds the name is gone exactly when there was one copy of it
at most, as is always the case at the top level. After any number of them it is gone exactly when
there were no more copies than that. Until then the path finds the copy before those that were
removed, and on paths that part from the way to the name nothing has changed. -/
theorem resolve_assign_nil_iff (ns ns' : Namespace φ) (p : Path) (s : String)
    (h : ns.assign p (.ofText s) .nil = (.ok (), ns')) :
    (ns'.resolve ⟨p.segments ++ [s]⟩ = .error (.ofMissing ⟨p.segments ++ [s]⟩) ↔
      (ns.copies p s).length ≤ 1) ∧
    (p.isRoot = true → (ns.copies p s).length ≤ 1) ∧
    (∀ count, (ns.remove p s count).resolve ⟨p.segments ++ [s]⟩ =
        .error (.ofMissing ⟨p.segments ++ [s]⟩) ↔ (ns.copies p s).length ≤ count) ∧
    (∀ count earlier e later, ns.copies p s = earlier ++ e :: later → later.length = count →
      (ns.remove p s count).lookup? ⟨p.segments ++ [s]⟩ = some e) ∧
    ∀ q : Path, ¬ q.segments <+: p.segments → ¬ p.segments ++ [s] <+: q.segments →
      ns'.lookup? q = ns.lookup? q := by
  have hok : (ns.assign p (.ofText s) .nil).1 = .ok () := congrArg Prod.fst h
  refine ⟨?_, ?_, ?_, ?_, ?_⟩
  · rw [resolve_eq_missing_iff, copies_assign_nil h, ← List.length_eq_zero_iff,
      List.length_dropLast]
    omega
  · intro hroot
    rw [copies, if_pos hroot]
    exact Option.length_toList_le
  · intro count
    rw [resolve_eq_missing_iff, copies_remove hok, ← List.length_eq_zero_iff, List.length_take]
    omega
  · intro count earlier e later hcopies hlater
    have hlength : (ns.copies p s).length - count = (earlier ++ [e]).length := by
      rw [hcopies, ← hlater]
      simp only [List.length_append, List.length_cons, List.length_nil]
      omega
    have hfront : ns.copies p s = (earlier ++ [e]) ++ later := by
      rw [hcopies, List.append_assoc]
      rfl
    rw [lookup?_append_name, copies_remove hok, hlength, hfront, List.take_left,
      List.getLast?_concat]
  · intro q habove hbelow
    refine lookup?_assign_of_apart h habove fun s' hs' => ?_
    cases (Value.text?_ofText s).symm.trans hs'
    exact hbelow

/-- A table that a peer has stored with one name twice. -/
def twofold : Namespace Stock :=
  (empty.assign .root (.ofText "t")
    (.table [(.ofText "k", .boolean true), (.ofText "k", .boolean false)])).2

/-- Of a name that stands twice a second assignment of nil removes the other copy. -/
theorem resolve_assign_nil_iff_twofold :
    ∃ ns', twofold.assign ⟨["t"]⟩ (.ofText "k") .nil = (.ok (), ns') ∧
      ns'.lookup? ⟨["t", "k"]⟩ = some (.value (.boolean true)) ∧
      (ns'.assign ⟨["t"]⟩ (.ofText "k") .nil).2.resolve ⟨["t", "k"]⟩ =
        .error (.ofMissing ⟨["t", "k"]⟩) := by
  have hassign : ∃ ns', twofold.assign ⟨["t"]⟩ (.ofText "k") .nil = (.ok (), ns') := ⟨_, rfl⟩
  obtain ⟨ns', hassign⟩ := hassign
  obtain rfl : (twofold.assign ⟨["t"]⟩ (.ofText "k") .nil).2 = ns' := congrArg Prod.snd hassign
  obtain ⟨-, -, hgone, hleft, -⟩ := resolve_assign_nil_iff twofold _ _ _ hassign
  have hcopies : twofold.copies ⟨["t"]⟩ "k" =
      [.value (.boolean true)] ++ .value (.boolean false) :: [] := rfl
  exact ⟨_, hassign, hleft 1 [] _ [.value (.boolean false)] hcopies rfl,
    (hgone 2).mpr (Nat.le_of_eq (congrArg List.length hcopies))⟩

/-- A name that a peer has stored twice is still there when nil was assigned to it. -/
theorem assign_nil_leaves_copy :
    twofold.Reachable ∧ (twofold.assign ⟨["t"]⟩ (.ofText "k") .nil).1 = .ok () ∧
      (twofold.assign ⟨["t"]⟩ (.ofText "k") .nil).2.resolve ⟨["t", "k"]⟩ = .ok (.boolean true) :=
  ⟨.assign .empty _ _ _, rfl, rfl⟩

end Namespace

end RemoteCall
