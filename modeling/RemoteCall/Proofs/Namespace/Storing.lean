import RemoteCall.Namespace.Stock
import RemoteCall.Proofs.Namespace.Navigation
import RemoteCall.Proofs.Value.Equality

/-!
# Storing under a key of any kind

Storing under a key acts on the last pair with an equal key, and all other pairs stay as they are.
A key without a not-a-number equals itself, so what was stored under it is found again, and storing
once more writes over it. A key with one equals nothing, itself included: it is never found, and
every node that is stored under it goes to the end.
-/

namespace RemoteCall

namespace Pairs

variable {α β : Type} {chosen : α → Bool} {pairs before after : List (α × β)} {key : α} {value : β}

/-- The pairs whose key is not chosen, in order. -/
def others (chosen : α → Bool) (pairs : List (α × β)) : List (α × β) :=
  pairs.filter fun pair => !chosen pair.1

/-- The other pairs of two lists are those of the first and those of the second. -/
theorem others_append (chosen : α → Bool) (front back : List (α × β)) :
    others chosen (front ++ back) = others chosen front ++ others chosen back :=
  List.filter_append _ _

/-- Where no key is chosen all pairs are others. -/
theorem others_of_none (h : ∀ pair ∈ pairs, chosen pair.1 = false) : others chosen pairs = pairs :=
  List.filter_eq_self.mpr fun pair hpair => by rw [h pair hpair]; rfl

/-- The last pair whose key is chosen is none of the others. -/
theorem LastAt.others_eq (h : LastAt chosen pairs before key value after) :
    others chosen pairs = others chosen before ++ after := by
  have hlast : others chosen ((key, value) :: after) = others chosen after := by
    rw [others, List.filter_cons_of_neg (by simp [h.isChosen])]
    rfl
  rw [h.split, others_append, hlast, others_of_none h.later]

end Pairs

namespace Entry

variable {φ : Type} {pairs : List (Value × Entry φ)} {key : Value} {new nil : Entry φ}

/-- Nil goes nowhere: the last pair with an equal key leaves, or there is none. -/
theorem setPair_nil_cases (pairs : List (Value × Entry φ)) (key : Value) (hnil : nil.isNil = true) :
    ((∀ pair ∈ pairs, key.same pair.1 = false) ∧ setPair pairs key nil = pairs) ∨
    ∃ before k old after, Pairs.LastAt key.same pairs before k old after ∧
      setPair pairs key nil = before ++ after := by
  simpa only [hnil, if_true] using setPair_cases pairs key nil

/-- Anything else takes the place of what the last pair with an equal key led to, or goes to the end
under its key. -/
theorem setPair_new_cases (pairs : List (Value × Entry φ)) (key : Value)
    (hnew : new.isNil = false) :
    ((∀ pair ∈ pairs, key.same pair.1 = false) ∧ setPair pairs key new = pairs ++ [(key, new)]) ∨
    ∃ before k old after, Pairs.LastAt key.same pairs before k old after ∧
      setPair pairs key new = before ++ (k, new) :: after := by
  simpa only [hnew, Bool.false_eq_true, if_false] using setPair_cases pairs key new

/-- A pair that goes to the end is the last one with an equal key, since its key equals itself. -/
theorem lastAt_concat (hkey : key.hasNaN = false) (pairs : List (Value × Entry φ))
    (new : Entry φ) : Pairs.LastAt key.same (pairs ++ [(key, new)]) pairs key new [] :=
  ⟨rfl, Value.same_self_iff.mpr hkey, by simp⟩

/-- Behind the storing, the pair with the node is the last one with an equal key. -/
theorem lastAt_setPair (pairs : List (Value × Entry φ)) (hkey : key.hasNaN = false)
    (hnew : new.isNil = false) :
    ∃ before k after, Pairs.LastAt key.same (setPair pairs key new) before k new after := by
  obtain ⟨hnone, hset⟩ | ⟨before, k, old, after, hlast, hset⟩ := setPair_new_cases pairs key hnew
  · rw [hset]
    exact ⟨pairs, key, [], lastAt_concat hkey pairs new⟩
  · rw [hset]
    exact ⟨before, k, after, hlast.withValue new⟩

/-- The pairs with other keys stay, in order, and no others are there. -/
theorem others_setPair (hkey : key.hasNaN = false) (new : Entry φ) :
    Pairs.others key.same (setPair pairs key new) = Pairs.others key.same pairs := by
  cases hnew : new.isNil with
  | true =>
    obtain ⟨hnone, hset⟩ | ⟨before, k, old, after, hlast, hset⟩ := setPair_nil_cases pairs key hnew
    · rw [hset]
    · rw [hset, hlast.others_eq, Pairs.others_append, Pairs.others_of_none hlast.later]
  | false =>
    obtain ⟨hnone, hset⟩ | ⟨before, k, old, after, hlast, hset⟩ := setPair_new_cases pairs key hnew
    · rw [hset, (lastAt_concat hkey pairs new).others_eq, List.append_nil]
    · rw [hset, (hlast.withValue new).others_eq, hlast.others_eq]

/-- What was stored before under the same key leaves no trace. -/
theorem setPair_setPair (hkey : key.hasNaN = false) (hnew : new.isNil = false) (next : Entry φ) :
    setPair (setPair pairs key new) key next = setPair pairs key next := by
  obtain ⟨hnone, hset⟩ | ⟨before, k, old, after, hlast, hset⟩ := setPair_new_cases pairs key hnew
  · have hend := lastAt_concat hkey pairs new
    rw [hset, setPair, setPair, hend.eraseLast?, hend.replaceLast?,
      Pairs.eraseLast?_of_none hnone, Pairs.replaceLast?_of_none hnone, List.append_nil]
    rfl
  · have hagain := hlast.withValue new
    rw [hset, setPair, setPair, hagain.eraseLast?, hagain.replaceLast?, hlast.eraseLast?,
      hlast.replaceLast?]
    rfl

/-- A key that holds a not-a-number is not found. -/
theorem same_eq_false_of_hasNaN (hkey : key.hasNaN = true) (pairs : List (Value × Entry φ)) :
    ∀ pair ∈ pairs, key.same pair.1 = false :=
  fun pair _ => Value.same_of_hasNaN hkey pair.1

/-- A key with a NaN in it equals none, so the pair is added. -/
theorem setPair_of_hasNaN (hkey : key.hasNaN = true) (hnew : new.isNil = false) :
    setPair pairs key new = pairs ++ [(key, new)] := by
  rw [setPair, if_neg (by simp [hnew]),
    Pairs.replaceLast?_of_none (same_eq_false_of_hasNaN hkey pairs)]
  rfl

/-! ### One after another -/

/-- The pairs after nodes were stored under one key, one after another. -/
def setPairs (pairs : List (Value × Entry φ)) (key : Value) (nodes : List (Entry φ)) :
    List (Value × Entry φ) :=
  nodes.foldl (fun pairs node => setPair pairs key node) pairs

/-- Whatever was stored under the key before, the next node makes the same of the pairs. -/
theorem setPair_setPairs (hkey : key.hasNaN = false) {nodes : List (Entry φ)}
    (hnodes : ∀ node ∈ nodes, node.isNil = false) (next : Entry φ) :
    setPair (setPairs pairs key nodes) key next = setPair pairs key next := by
  induction nodes generalizing pairs with
  | nil => rfl
  | cons node nodes ih =>
    obtain ⟨hnode, hrest⟩ := List.forall_mem_cons.mp hnodes
    exact (ih hrest).trans (setPair_setPair hkey hnode next)

/-- Under a key that holds a not-a-number all of them are there at the end. -/
theorem setPairs_of_hasNaN (hkey : key.hasNaN = true) {nodes : List (Entry φ)}
    (hnodes : ∀ node ∈ nodes, node.isNil = false) :
    setPairs pairs key nodes = pairs ++ nodes.map fun node => (key, node) := by
  induction nodes generalizing pairs with
  | nil => exact (List.append_nil pairs).symm
  | cons node nodes ih =>
    obtain ⟨hnode, hrest⟩ := List.forall_mem_cons.mp hnodes
    have hfirst : setPairs pairs key (node :: nodes) =
        setPairs (pairs ++ [(key, node)]) key nodes :=
      congrArg (setPairs · key nodes) (setPair_of_hasNaN hkey hnode)
    rw [hfirst, ih hrest, List.append_assoc]
    rfl

/-- A key equals the keys that are worth the same, and none if it holds a not-a-number. A node that
is not nil goes to the last pair with an equal key, which keeps its key, or to a new pair at the
end. Under a key without a not-a-number the other pairs stay in order, the node is found from the
end by this key and all that equal it, and the next node under this key makes of the pairs what it
would have made without the ones before it. Under a key with one nothing is found, and nodes are
added at the end one by one. Nil takes the last pair with an equal key away, if there is one. -/
theorem setPair_settles (pairs : List (Value × Entry φ)) (key : Value) :
    (∀ other : Value, key.same other = true ↔
      key.hasNaN = false ∧ other.hasNaN = false ∧ key.worth = other.worth) ∧
    (∀ new : Entry φ, new.isNil = false →
      (((∀ pair ∈ pairs, key.same pair.1 = false) ∧
          setPair pairs key new = pairs ++ [(key, new)]) ∨
        ∃ before k old after, Pairs.LastAt key.same pairs before k old after ∧
          setPair pairs key new = before ++ (k, new) :: after) ∧
      (key.hasNaN = false →
        Pairs.others key.same (setPair pairs key new) = Pairs.others key.same pairs ∧
        key.same key = true ∧ ∀ other, key.same other = true →
          Pairs.findLast? other.same (setPair pairs key new) = some new)) ∧
    (key.hasNaN = false → ∀ nodes : List (Entry φ), (∀ node ∈ nodes, node.isNil = false) →
      ∀ next, setPair (setPairs pairs key nodes) key next = setPair pairs key next) ∧
    (key.hasNaN = true → Pairs.findLast? key.same pairs = none ∧
      ∀ nodes : List (Entry φ), (∀ node ∈ nodes, node.isNil = false) →
        setPairs pairs key nodes = pairs ++ nodes.map fun node => (key, node)) ∧
    ∀ nil : Entry φ, nil.isNil = true →
      ((∀ pair ∈ pairs, key.same pair.1 = false) ∧ setPair pairs key nil = pairs) ∨
      ∃ before k old after, Pairs.LastAt key.same pairs before k old after ∧
        setPair pairs key nil = before ++ after := by
  refine ⟨Value.same_iff key, fun new hnew => ⟨setPair_new_cases pairs key hnew, fun hkey => ?_⟩,
    fun hkey nodes hnodes next => setPair_setPairs hkey hnodes next, fun hkey => ?_,
    fun nil hnil => setPair_nil_cases pairs key hnil⟩
  · obtain ⟨before, k, after, hlast⟩ := lastAt_setPair pairs hkey hnew
    refine ⟨others_setPair hkey new, Value.same_self_iff.mpr hkey, fun other hother => ?_⟩
    rw [← Value.same_eq_of_same hother]
    exact hlast.findLast?
  · exact ⟨Pairs.findLast?_of_none (same_eq_false_of_hasNaN hkey pairs),
      fun nodes hnodes => setPairs_of_hasNaN hkey hnodes⟩

/-- The key of a table in which a zero of this sign and representation stands. -/
def zeroKey (zero : Number) : Value := .table [(.number zero, .nil)]

/-- Two keys that differ in a zero only, and one that is no number. -/
def zeros : List (Value × Entry Stock) :=
  [(zeroKey ⟨.negativeZero, .float⟩, .value (.boolean true)),
    (.float .invalid, .value (.boolean true)),
    (zeroKey ⟨.zero, .integer⟩, .value (.boolean false))]

/-- A function is stored over the last zero and found under the other one, and one under the key
that is no number goes to the end. -/
theorem setPair_settles_zeros :
    (zeroKey ⟨.zero, .float⟩).same (zeroKey ⟨.negativeZero, .float⟩) = true ∧
      Pairs.findLast? (zeroKey ⟨.negativeZero, .float⟩).same
        (setPair zeros (zeroKey ⟨.zero, .float⟩) (.function .echo)) = some (.function .echo) ∧
      setPairs zeros (.float .invalid) [.function .echo, .function .silent] =
        zeros ++ [(.float .invalid, .function .echo), (.float .invalid, .function .silent)] := by
  obtain ⟨hequal, hstored, -⟩ := setPair_settles zeros (zeroKey ⟨.zero, .float⟩)
  obtain ⟨-, -, -, hlost, -⟩ := setPair_settles zeros (.float .invalid)
  have hsame : (zeroKey ⟨.zero, .float⟩).same (zeroKey ⟨.negativeZero, .float⟩) = true :=
    (hequal _).mpr ⟨rfl, rfl, rfl⟩
  refine ⟨hsame, ?_, ?_⟩
  · exact ((hstored (.function .echo) rfl).2 rfl).2.2 _ hsame
  · exact (hlost rfl).2 _ (by simp [isNil])

end Entry

end RemoteCall
