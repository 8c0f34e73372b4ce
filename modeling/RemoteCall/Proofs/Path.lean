import RemoteCall.Path

/-!
# Names and dotted text

A name that is not empty and has no dot in it survives the dotted text of a path. The names that
reading a text gives are of this kind, and a path made of such names is read back from its text.
-/

namespace RemoteCall

namespace Text

variable {separator : Char} {xs piece : List Char}

/-- A character that is no separator goes to the first piece. -/
theorem cut_cons_of_ne {c : Char} (h : c ≠ separator) {first : List Char}
    {others : List (List Char)} (hcut : cut separator xs = first :: others) :
    cut separator (c :: xs) = (c :: first) :: others := by
  rw [cut, if_neg h, hcut]

/-- Text without a separator is one piece. -/
theorem cut_of_not_mem (h : separator ∉ xs) : cut separator xs = [xs] := by
  induction xs with
  | nil => rfl
  | cons c xs ih =>
    obtain ⟨hc, hxs⟩ := List.ne_and_not_mem_of_not_mem_cons h
    exact cut_cons_of_ne hc.symm (ih hxs)

/-- There is always a piece. -/
theorem cut_ne_nil (separator : Char) (xs : List Char) : cut separator xs ≠ [] := by
  cases xs with
  | nil => exact List.cons_ne_nil _ _
  | cons c xs =>
    rw [cut]
    split
    · exact List.cons_ne_nil _ _
    · split <;> exact List.cons_ne_nil _ _

/-- What stands on the two sides of a separator is cut on its own. -/
theorem cut_append_cons (separator : Char) (xs ys : List Char) :
    cut separator (xs ++ separator :: ys) = cut separator xs ++ cut separator ys := by
  induction xs with
  | nil =>
    rw [List.nil_append, cut, cut, if_pos rfl]
    rfl
  | cons c xs ih =>
    by_cases hc : c = separator
    · rw [List.cons_append, cut, if_pos hc, ih, cut, if_pos hc, List.cons_append]
    · obtain ⟨first, others, hcut⟩ := List.exists_cons_of_ne_nil (cut_ne_nil separator xs)
      rw [List.cons_append, cut_cons_of_ne hc hcut]
      exact cut_cons_of_ne hc (by rw [ih, hcut]; rfl)

/-- No piece has a separator in it. -/
theorem not_mem_of_mem_cut (h : piece ∈ cut separator xs) : separator ∉ piece := by
  induction xs generalizing piece with
  | nil =>
    rw [List.mem_singleton.mp h]
    exact List.not_mem_nil
  | cons c xs ih =>
    rw [cut] at h
    split at h
    · rcases List.mem_cons.mp h with rfl | h
      · exact List.not_mem_nil
      · exact ih h
    · rename_i hc
      cases hcut : cut separator xs with
      | nil =>
        rw [hcut] at h
        rw [List.mem_singleton.mp h]
        simpa using Ne.symm hc
      | cons first others =>
        rw [hcut] at h
        rcases List.mem_cons.mp h with rfl | h
        · have hfirst := ih (hcut ▸ List.mem_cons_self)
          simpa [Ne.symm hc] using hfirst
        · exact ih (hcut ▸ List.mem_cons_of_mem _ h)

/-- The pieces joined by the separator give the text back. -/
theorem intercalate_cut (separator : Char) (xs : List Char) :
    [separator].intercalate (cut separator xs) = xs := by
  induction xs with
  | nil => rfl
  | cons c xs ih =>
    obtain ⟨first, others, hcut⟩ := List.exists_cons_of_ne_nil (cut_ne_nil separator xs)
    by_cases hc : c = separator
    · rw [cut, if_pos hc, hcut, List.intercalate_cons_cons, ← hcut, ih, hc]
      rfl
    · rw [hcut] at ih
      rw [cut_cons_of_ne hc hcut, ← ih]
      cases others with
      | nil => rfl
      | cons second others => rfl

/-- A piece is a part of the text. -/
theorem isInfix_of_mem_cut (h : piece ∈ cut separator xs) : piece <:+: xs := by
  rw [← intercalate_cut separator xs]
  generalize cut separator xs = pieces at h
  induction pieces with
  | nil => exact absurd h List.not_mem_nil
  | cons first others ih =>
    cases others with
    | nil =>
      rw [List.intercalate_singleton]
      exact List.mem_singleton.mp h ▸ List.infix_rfl
    | cons second others =>
      rw [List.intercalate_cons_cons]
      rcases List.mem_cons.mp h with rfl | h
      · rw [List.append_assoc]
        exact List.infix_append_left
      · exact List.infix_append_of_infix_right (ih h)

/-- A joined text is cut into what its parts are cut into. -/
theorem cut_intercalate_eq_flatMap {parts : List (List Char)} (hne : parts ≠ []) :
    cut separator ([separator].intercalate parts) = parts.flatMap (cut separator) := by
  induction parts with
  | nil => exact absurd rfl hne
  | cons first others ih =>
    cases others with
    | nil => rw [List.intercalate_singleton, List.flatMap_singleton]
    | cons second others =>
      rw [List.intercalate_cons_cons, List.append_assoc, List.singleton_append, cut_append_cons,
        ih (List.cons_ne_nil _ _)]
      rfl

/-- Pieces without separators are what their joined text is cut into. -/
theorem cut_intercalate {pieces : List (List Char)} (hne : pieces ≠ [])
    (h : ∀ piece ∈ pieces, separator ∉ piece) :
    cut separator ([separator].intercalate pieces) = pieces := by
  rw [cut_intercalate_eq_flatMap hne]
  clear hne
  induction pieces with
  | nil => rfl
  | cons first others ih =>
    obtain ⟨hfirst, hothers⟩ := List.forall_mem_cons.mp h
    rw [List.flatMap_cons, cut_of_not_mem hfirst, ih hothers]
    rfl

end Text

namespace Path

/-- The name can stand between the dots of a text: it is not empty and has no dot in it. -/
def IsName (name : String) : Prop := name.toList ≠ [] ∧ '.' ∉ name.toList

instance (name : String) : Decidable (IsName name) := inferInstanceAs (Decidable (_ ∧ _))

/-- The names of a path are checked one after another. -/
theorem check_cons (first : String) (rest : List String) (limit : Nat) :
    check ⟨first :: rest⟩ limit = checkSegment first limit >>= fun _ => check ⟨rest⟩ limit := rfl

/-- The error refuses the first name of the path that has more than `limit` bytes. -/
def Refuses (p : Path) (limit : Nat) (e : Error) : Prop :=
  ∃ before name after, p.segments = before ++ name :: after ∧
    (∀ short ∈ before, short.utf8ByteSize ≤ limit) ∧ limit < name.utf8ByteSize ∧
    e = .longName name limit

/-- A path is refused for its first overlong name, and only for one. -/
theorem check_cases (p : Path) (limit : Nat) :
    (p.check limit = .ok () ∧ ∀ name ∈ p.segments, name.utf8ByteSize ≤ limit) ∨
    ∃ e, p.check limit = .error e ∧ p.Refuses limit e := by
  obtain ⟨names⟩ := p
  induction names with
  | nil => exact .inl ⟨rfl, fun _ h => absurd h List.not_mem_nil⟩
  | cons first rest ih =>
    by_cases hfirst : limit < first.utf8ByteSize
    · right
      refine ⟨.longName first limit, ?_, [], first, rest, rfl,
        fun _ h => absurd h List.not_mem_nil, hfirst, rfl⟩
      rw [check_cons, checkSegment, if_pos hfirst]
      rfl
    · have hrest : check ⟨first :: rest⟩ limit = check ⟨rest⟩ limit := by
        rw [check_cons, checkSegment, if_neg hfirst]
        rfl
      have hshort : first.utf8ByteSize ≤ limit := Nat.le_of_not_lt hfirst
      rw [hrest]
      rcases ih with ⟨hok, hnames⟩ | ⟨e, herror, before, name, after, hsplit, hbefore, hlong⟩
      · exact .inl ⟨hok, List.forall_mem_cons.mpr ⟨hshort, hnames⟩⟩
      · refine .inr ⟨e, herror, first :: before, name, after, ?_, ?_, hlong⟩
        · exact congrArg (first :: ·) hsplit
        · exact List.forall_mem_cons.mpr ⟨hshort, hbefore⟩

/-- Reading gives names that can stand between dots. -/
theorem isName_of_mem_parse {text name : String} (h : name ∈ (parse text).segments) :
    IsName name := by
  obtain ⟨piece, hpiece, rfl⟩ := List.mem_map.mp h
  obtain ⟨hcut, hne⟩ := List.mem_filter.mp hpiece
  rw [IsName, String.toList_ofList]
  exact ⟨of_decide_eq_true hne, Text.not_mem_of_mem_cut hcut⟩

/-- Reading makes no name longer than the text. -/
theorem utf8ByteSize_le_of_mem_parse {text name : String} (h : name ∈ (parse text).segments) :
    name.utf8ByteSize ≤ text.utf8ByteSize := by
  obtain ⟨piece, hpiece, rfl⟩ := List.mem_map.mp h
  obtain ⟨before, after, hsplit⟩ := Text.isInfix_of_mem_cut (List.mem_filter.mp hpiece).1
  have htext : text = String.ofList before ++ String.ofList piece ++ String.ofList after := by
    rw [← String.ofList_append, ← String.ofList_append, hsplit, String.ofList_toList]
  rw [htext, String.utf8ByteSize_append, String.utf8ByteSize_append]
  omega

/-- Names that are joined by dots are read one after another, whatever they are. -/
theorem segments_parse_joined (names : List String) :
    (parse (Text.joined "." names)).segments = names.flatMap fun name => (parse name).segments := by
  by_cases hne : names = []
  · subst hne
    rfl
  · have hmap : names.map String.toList ≠ [] := by simpa using hne
    have hcut : Text.cut '.' (Text.joined "." names).toList =
        (names.map String.toList).flatMap (Text.cut '.') := by
      rw [Text.joined, String.toList_intercalate]
      exact Text.cut_intercalate_eq_flatMap hmap
    rw [parse, hcut, List.flatMap_map, List.filter_flatMap, List.map_flatMap]
    rfl

/-- A path of names that can stand between dots is read back from its text. -/
theorem parse_text {p : Path} (h : ∀ name ∈ p.segments, IsName name) : parse p.text = p := by
  obtain ⟨names⟩ := p
  by_cases hne : names = []
  · subst hne
    rfl
  · have hcut : Text.cut '.' (String.toList (text ⟨names⟩)) = names.map String.toList := by
      rw [text, Text.joined, String.toList_intercalate]
      refine Text.cut_intercalate (by simpa using hne) fun piece hpiece => ?_
      obtain ⟨name, hname, rfl⟩ := List.mem_map.mp hpiece
      exact (h name hname).2
    have hfilter : (names.map String.toList).filter (· ≠ []) = names.map String.toList := by
      refine List.filter_eq_self.mpr fun piece hpiece => ?_
      obtain ⟨name, hname, rfl⟩ := List.mem_map.mp hpiece
      exact decide_eq_true (h name hname).1
    rw [parse, hcut, hfilter, List.map_map]
    simp [Function.comp_def]

/-- One more name follows a dot. -/
theorem text_append_singleton {names : List String} (hne : names ≠ []) (name : String) :
    text ⟨names ++ [name]⟩ = text ⟨names⟩ ++ "." ++ name := by
  rw [text, text, Text.joined, Text.joined,
    String.intercalate_append_of_ne_nil hne (List.cons_ne_nil _ _), String.intercalate_singleton]

/-- Adding names one by one to the text of a path gives the text of the longer path. -/
theorem foldl_text {names : List String} (hne : names ≠ []) (more : List String) :
    more.foldl (fun text name => text ++ "." ++ name) (text ⟨names⟩) = text ⟨names ++ more⟩ := by
  induction more generalizing names with
  | nil => rw [List.foldl_nil, List.append_nil]
  | cons name more ih =>
    have hne' : names ++ [name] ≠ [] := List.append_ne_nil_of_right_ne_nil _ (List.cons_ne_nil _ _)
    rw [List.foldl_cons, ← text_append_singleton hne, ih hne', List.append_assoc]
    rfl

end Path

end RemoteCall
