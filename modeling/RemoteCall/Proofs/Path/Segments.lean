import RemoteCall.Proofs.Path

/-!
# The text of a path and its segments

Peers exchange the dotted text of a path only, while paths are built from texts and from names that
are joined on as they are. Reading distributes over dots, so the text of a path reads as its names
read one after another, and it is the path itself that comes back exactly when every name can stand
between dots. Joining a name on can be undone, and building a path from names stops at the first one
that is too long, which is the one that a check of the whole path reports.
-/

namespace RemoteCall

namespace Path

variable {p : Path} {name : String} {limit : Nat} {e : Error}

/-! ### Reading and writing -/

/-- The sides of a dot are read one after the other. -/
theorem segments_parse_dot (before after : String) :
    (parse (before ++ "." ++ after)).segments =
      (parse before).segments ++ (parse after).segments := by
  have hjoined : before ++ "." ++ after = Text.joined "." [before, after] := rfl
  rw [hjoined, segments_parse_joined, List.flatMap_cons, List.flatMap_singleton]

/-- The text of a path reads as its names read one after another. -/
theorem segments_parse_text (p : Path) :
    (parse p.text).segments = p.segments.flatMap fun name => (parse name).segments :=
  segments_parse_joined p.segments

/-- A path comes back from its text exactly when all its names can stand between dots. -/
theorem parse_text_iff (p : Path) : parse p.text = p ↔ ∀ name ∈ p.segments, IsName name := by
  refine ⟨fun hback name hname => ?_, parse_text⟩
  rw [← hback] at hname
  exact isName_of_mem_parse hname

/-- What a text names comes back from its own text. -/
theorem parse_text_parse (text : String) : parse (parse text).text = parse text :=
  parse_text fun _ => isName_of_mem_parse

/-! ### Joining -/

/-- A name passes its check exactly when it is no longer than the limit. -/
theorem checkSegment_eq_ok_iff :
    checkSegment name limit = .ok () ↔ name.utf8ByteSize ≤ limit := by
  unfold checkSegment
  split <;> simp <;> omega

/-- A short name is joined to a path. -/
theorem join_of_le (p : Path) (h : name.utf8ByteSize ≤ limit) :
    p.join name limit = .ok ⟨p.segments ++ [name]⟩ := by
  rw [join, checkSegment_eq_ok_iff.mpr h]
  rfl

/-- A long name is refused. -/
theorem join_of_lt (p : Path) (h : limit < name.utf8ByteSize) :
    p.join name limit = .error (.longName name limit) := by
  rw [join, checkSegment, if_pos h]
  rfl

/-- A name is refused for its length only. -/
theorem join_eq_error_iff : p.join name limit = .error e ↔
    limit < name.utf8ByteSize ∧ e = .longName name limit := by
  by_cases hlong : limit < name.utf8ByteSize
  · rw [join_of_lt p hlong]
    constructor
    · intro he
      cases he
      exact ⟨hlong, rfl⟩
    · rintro ⟨-, rfl⟩
      rfl
  · rw [join_of_le p (Nat.le_of_not_lt hlong)]
    constructor
    · intro he
      cases he
    · rintro ⟨hlong', -⟩
      exact absurd hlong' hlong

/-- The parent of a path has all names but the last. -/
theorem parent?_eq_some {names : List String} (h : p.segments = names ++ [name]) :
    p.parent? = some ⟨names⟩ := by
  rw [parent?, h, List.dropLast_concat, if_neg (by simp)]

/-- The leaf of a path is its last name. -/
theorem leaf?_eq_some {names : List String} (h : p.segments = names ++ [name]) :
    p.leaf? = some name := by
  rw [leaf?, h, List.getLast?_concat]

/-! ### Checking -/

/-- Behind a short name the other names are checked. -/
theorem check_cons_of_le {first : String} (h : first.utf8ByteSize ≤ limit) (rest : List String) :
    check ⟨first :: rest⟩ limit = check ⟨rest⟩ limit := by
  rw [check_cons, checkSegment_eq_ok_iff.mpr h]
  rfl

/-- A long name is the one that is refused. -/
theorem check_cons_of_lt {first : String} (h : limit < first.utf8ByteSize) (rest : List String) :
    check ⟨first :: rest⟩ limit = .error (.longName first limit) := by
  rw [check_cons, checkSegment, if_pos h]
  rfl

/-- A path is refused for its first overlong name. -/
theorem check_eq_error_iff : p.check limit = .error e ↔ p.Refuses limit e := by
  constructor
  · intro hcheck
    obtain ⟨hok, -⟩ | ⟨e', herror, hrefuses⟩ := check_cases p limit
    · cases hok.symm.trans hcheck
    · cases herror.symm.trans hcheck
      exact hrefuses
  · obtain ⟨names⟩ := p
    rintro ⟨before, name, after, rfl, hbefore, hlong, rfl⟩
    induction before with
    | nil => exact check_cons_of_lt hlong after
    | cons first before ih =>
      obtain ⟨hfirst, hrest⟩ := List.forall_mem_cons.mp hbefore
      exact (check_cons_of_le hfirst _).trans (ih hrest)

/-- Joining names on one by one is checking them all first. -/
theorem foldlM_join (p : Path) (names : List String) (limit : Nat) :
    names.foldlM (fun p name => p.join name limit) p =
      (check ⟨names⟩ limit).map fun _ => ⟨p.segments ++ names⟩ := by
  induction names generalizing p with
  | nil => rw [List.append_nil]; rfl
  | cons first rest ih =>
    rw [List.foldlM_cons]
    by_cases hfirst : first.utf8ByteSize ≤ limit
    · rw [join_of_le p hfirst, check_cons_of_le hfirst]
      exact (ih ⟨p.segments ++ [first]⟩).trans (by rw [List.append_assoc]; rfl)
    · have hlong := Nat.lt_of_not_le hfirst
      rw [join_of_lt p hlong, check_cons_of_lt hlong]
      rfl

/-- A path of given names is made if it passes its check. -/
theorem ofSegments_eq (names : List String) (limit : Nat) :
    ofSegments names limit = (check ⟨names⟩ limit).map fun _ => ⟨names⟩ :=
  foldlM_join root names limit

/-- A path is built exactly from names that all pass the check. -/
theorem ofSegments_eq_ok_iff (names : List String) (limit : Nat) :
    ofSegments names limit = .ok p ↔
      p = ⟨names⟩ ∧ ∀ name ∈ names, checkSegment name limit = .ok () := by
  rw [ofSegments_eq]
  obtain ⟨hok, hshort⟩ | ⟨e, herror, before, name, after, hsplit, -, hlong, -⟩ :=
    check_cases ⟨names⟩ limit
  · rw [hok]
    constructor
    · intro hp
      cases hp
      exact ⟨rfl, fun name hname => checkSegment_eq_ok_iff.mpr (hshort name hname)⟩
    · rintro ⟨rfl, -⟩
      rfl
  · rw [herror]
    constructor
    · intro hp
      cases hp
    · rintro ⟨-, hshort⟩
      have hname : name ∈ (⟨names⟩ : Path).segments :=
        hsplit ▸ List.mem_append_right _ List.mem_cons_self
      exact absurd (checkSegment_eq_ok_iff.mp (hshort name hname)) (Nat.not_le.mpr hlong)

/-- Reading distributes over dots and gives names that can stand between them. The text of a path
reads as its names do one after another, so the path comes back exactly when they are all of this
kind, and what a text names has a text that names the same. A name is joined on unless it is too
long, and then it is the last one behind the path as it was. A path is built from names exactly when
each of them passes the check, and the check of a path reports the first that does not. -/
theorem text_and_segments :
    (∀ a b : String,
      (parse (a ++ "." ++ b)).segments = (parse a).segments ++ (parse b).segments) ∧
    (∀ text : String, ∀ name ∈ (parse text).segments, IsName name) ∧
    (∀ p : Path,
      (parse p.text).segments = (p.segments.flatMap fun name => (parse name).segments) ∧
      (parse p.text = p ↔ ∀ name ∈ p.segments, IsName name)) ∧
    (∀ text : String, (parse (parse text).text).text = (parse text).text) ∧
    (∀ (p : Path) (name : String) (limit : Nat),
      (∀ e, p.join name limit = .error e ↔
        limit < name.utf8ByteSize ∧ e = .longName name limit) ∧
      (name.utf8ByteSize ≤ limit →
        ∃ q, p.join name limit = .ok q ∧ q.parent? = some p ∧ q.leaf? = some name)) ∧
    (∀ (names : List String) (limit : Nat) (p : Path), ofSegments names limit = .ok p ↔
      p = ⟨names⟩ ∧ ∀ name ∈ names, checkSegment name limit = .ok ()) ∧
    ∀ (p : Path) (limit : Nat) (e : Error), p.check limit = .error e ↔ p.Refuses limit e := by
  refine ⟨segments_parse_dot, fun _ _ => isName_of_mem_parse,
    fun p => ⟨segments_parse_text p, parse_text_iff p⟩,
    fun text => congrArg Path.text (parse_text_parse text), fun p name limit => ?_,
    fun names limit p => ofSegments_eq_ok_iff names limit, fun p limit e => check_eq_error_iff⟩
  exact ⟨fun e => join_eq_error_iff,
    fun h => ⟨_, join_of_le p h, parent?_eq_some rfl, leaf?_eq_some rfl⟩⟩

/-- A path of names of which one has a dot, one is empty and one is the longest that was allowed. -/
def uneven : Path := ⟨["a.b", "", "next"]⟩

/-- It comes back without the empty name and with one more, it is found behind a name that is joined
on, and the first name that is too long is the one that is reported. -/
theorem text_and_segments_uneven :
    ofSegments uneven.segments 4 = .ok uneven ∧
      (parse uneven.text).segments = ["a", "b", "next"] ∧ parse uneven.text ≠ uneven ∧
      (∃ q, uneven.join "x.y" 3 = .ok q ∧ q.parent? = some uneven ∧ q.leaf? = some "x.y") ∧
      uneven.check 2 = .error (.longName "a.b" 2) := by
  obtain ⟨-, -, hback, -, hjoin, hbuild, hcheck⟩ := text_and_segments
  obtain ⟨hread, hsame⟩ := hback uneven
  have hshort : ∀ name ∈ uneven.segments, name.utf8ByteSize ≤ 4 := by decide
  have hpass : ∀ name ∈ uneven.segments, checkSegment name 4 = .ok () :=
    fun name hname => checkSegment_eq_ok_iff.mpr (hshort name hname)
  refine ⟨(hbuild _ _ _).mpr ⟨rfl, hpass⟩, hread.trans (by decide +kernel), ?_, ?_, ?_⟩
  · exact fun h => absurd (hsame.mp h) (by decide)
  · exact (hjoin uneven "x.y" 3).2 (by decide)
  · exact (hcheck _ _ _).mpr ⟨[], "a.b", ["", "next"], rfl, by decide, by decide, rfl⟩

end Path

end RemoteCall
