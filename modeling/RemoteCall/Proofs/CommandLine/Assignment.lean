import RemoteCall.CommandLine.Request
import RemoteCall.Proofs.Client.Chains
import RemoteCall.Proofs.Path.Segments

/-!
# Where an assignment goes

A value is read at the whole path of its text. A value is assigned by the text alone: it is cut at
its last dot, the key is what follows and the table is what precedes. The two are about one place
unless the text ends in a dot, when the key is empty, or has nothing but dots before its only name,
when there is no table to assign in.
-/

namespace RemoteCall

namespace Text

variable {separator : Char} {xs before after : List Char}

/-- Text without a separator is not cut. -/
theorem cutLast_of_not_mem (h : separator ∉ xs) : cutLast separator xs = none := by
  rw [cutLast, cut_of_not_mem h]
  rfl

/-- The last separator is the one that no other follows. -/
theorem cutLast_append_cons (h : separator ∉ after) :
    cutLast separator (before ++ separator :: after) = some (before, after) := by
  have hne : (cut separator before).reverse ≠ [] := by simpa using cut_ne_nil separator before
  obtain ⟨first, more, hpieces⟩ := List.exists_cons_of_ne_nil hne
  rw [cutLast, cut_append_cons, cut_of_not_mem h, List.reverse_append, hpieces]
  change some ([separator].intercalate (first :: more).reverse, after) = _
  rw [← hpieces, List.reverse_reverse, intercalate_cut]

/-- Text with a separator has a last one. -/
theorem exists_last_separator (h : separator ∈ xs) :
    ∃ before after, xs = before ++ separator :: after ∧ separator ∉ after := by
  obtain ⟨after, before, hsplit, hafter⟩ :=
    List.eq_append_cons_of_mem (List.mem_reverse.mpr h)
  refine ⟨before.reverse, after.reverse, ?_, fun hmem => hafter (List.mem_reverse.mp hmem)⟩
  rw [← List.reverse_reverse xs, hsplit, List.reverse_append, List.reverse_cons, List.append_assoc]
  rfl

end Text

namespace Path

/-- A text without dots is a name, or nothing. -/
theorem segments_parse_of_not_mem {text : String} (h : '.' ∉ text.toList) :
    (parse text).segments = if text = "" then [] else [text] := by
  rw [parse, Text.cut_of_not_mem h]
  split
  · subst text
    rfl
  · rename_i hne
    have hlist : text.toList ≠ [] := by simpa using hne
    simp [hlist]

/-- No name of a path that passes a check is too long. -/
theorem short_of_check {p : Path} {limit : Nat} (hcheck : p.check limit = .ok ()) :
    ∀ name ∈ p.segments, name.utf8ByteSize ≤ limit := by
  rcases p.check_cases limit with ⟨-, hshort⟩ | ⟨e, he, -⟩
  · exact hshort
  · cases hcheck.symm.trans he

/-- The names before the last pass a check that all of them pass. -/
theorem check_init {p : Path} {names : List String} {name : String} {limit : Nat}
    (h : p.segments = names ++ [name]) (hcheck : p.check limit = .ok ()) :
    check ⟨names⟩ limit = .ok () := by
  rcases check_cases ⟨names⟩ limit with ⟨hok, -⟩ | ⟨e, -, before, long, after, hsplit, -, hlong, -⟩
  · exact hok
  · have hmem : long ∈ p.segments := by
      rw [h, show names = _ from hsplit]
      exact List.mem_append_left _ (List.mem_append_right _ List.mem_cons_self)
    exact absurd hlong (Nat.not_lt.mpr (short_of_check hcheck long hmem))

end Path

namespace CommandLine

variable {path : String} {settings : ClientSettings} {h : Handle}

/-! ### Texts of paths -/

/-- The text ends in a dot. -/
def EndsInDot (path : String) : Prop := path.toList.getLast? = some '.'

instance (path : String) : Decidable (EndsInDot path) := inferInstanceAs (Decidable (_ = _))

/-- The text has a dot in front of its only name, which ends it. -/
def LeadsWithDot (path : String) : Prop :=
  '.' ∈ path.toList ∧ ¬ EndsInDot path ∧ (Path.parse path).segments.length = 1

instance (path : String) : Decidable (LeadsWithDot path) := inferInstanceAs (Decidable (_ ∧ _ ∧ _))

/-- A text with a dot at its end ends in one. -/
theorem endsInDot_dot (table : String) : EndsInDot (table ++ "." ++ "") := by
  simp [EndsInDot]

/-- The text ends as what follows its last dot does. -/
theorem not_endsInDot_of_not_mem {key : String} (hne : key ≠ "") (hkey : '.' ∉ key.toList)
    (table : String) : ¬ EndsInDot (table ++ "." ++ key) := by
  have hlist : key.toList ≠ [] := by simpa using hne
  rw [EndsInDot, String.toList_append, List.getLast?_append, List.getLast?_eq_some_getLast hlist,
    Option.some_or]
  exact fun hlast => hkey (Option.some.inj hlast ▸ List.getLast_mem hlist)

/-- A text has no dot, or it has a last one, with nothing behind it or with the last name. -/
theorem Request.cutLast_cases (path : String) :
    (cutLast path = none ∧ '.' ∉ path.toList ∧
      (Path.parse path).segments = if path = "" then [] else [path]) ∨
    (∃ table, cutLast path = some (table, "") ∧ EndsInDot path ∧
      Path.parse path = Path.parse table) ∨
    ∃ table key, cutLast path = some (table, key) ∧ '.' ∈ path.toList ∧ ¬ EndsInDot path ∧
      key ≠ "" ∧ (Path.parse path).segments = (Path.parse table).segments ++ [key] := by
  by_cases hdot : '.' ∈ path.toList
  · obtain ⟨before, after, hsplit, hafter⟩ := Text.exists_last_separator hdot
    have hcut : cutLast path = some (String.ofList before, String.ofList after) := by
      rw [cutLast, hsplit, Text.cutLast_append_cons hafter]
      rfl
    have hpath : path = String.ofList before ++ "." ++ String.ofList after := by
      rw [← String.ofList_toList (s := path), hsplit, String.ofList_append, String.ofList_cons,
        ← String.append_assoc]
      rfl
    have hkey : '.' ∉ (String.ofList after).toList := by rwa [String.toList_ofList]
    generalize String.ofList before = table at hcut hpath
    generalize String.ofList after = key at hcut hpath hkey
    have hsegments := Path.segments_parse_dot table key
    rw [Path.segments_parse_of_not_mem hkey, ← hpath] at hsegments
    by_cases hne : key = ""
    · subst hne
      refine .inr (.inl ⟨table, hcut, hpath ▸ endsInDot_dot table, ?_⟩)
      rw [if_pos rfl, List.append_nil] at hsegments
      exact congrArg Path.mk hsegments
    · rw [if_neg hne] at hsegments
      exact .inr (.inr ⟨table, key, hcut, hdot,
        hpath ▸ not_endsInDot_of_not_mem hne hkey table, hne, hsegments⟩)
  · refine .inl ⟨?_, hdot, Path.segments_parse_of_not_mem hdot⟩
    rw [cutLast, Text.cutLast_of_not_mem hdot]
    rfl

/-! ### Operations of commands -/

namespace Commanding

/-- Reads the value at a path and prints it. -/
def reading (p : Path) : Commanding String := do
  let v ← operate (Handle.getPath p)
  return Request.line v.toJson.pretty

/-- Assigns a key of the table at a path and prints nothing. -/
def storing (p : Path) (key value : Value) : Commanding String := do
  operate (Handle.setPath p key value)
  return ""

/-- Names that are short enough are collected one after another. -/
theorem exists_chain {first : String} {rest : List String}
    (hcheck : Path.check ⟨first :: rest⟩ settings.maxNameLength = .ok ()) :
    ∃ p, Proxy.chain settings first rest = .ok p := by
  have hextend : ∀ (names : List String) (p : Proxy),
      (∀ name ∈ names, name.utf8ByteSize ≤ settings.maxNameLength) →
      ∃ q, names.foldlM (fun p name => p.index settings name) p = .ok q := by
    intro names
    induction names with
    | nil => exact fun p _ => ⟨p, rfl⟩
    | cons name names ih =>
      intro p hnames
      obtain ⟨hname, hnames⟩ := List.forall_mem_cons.mp hnames
      obtain ⟨q, hq⟩ := ih ⟨p.names, name⟩ hnames
      refine ⟨q, ?_⟩
      rw [List.foldlM_cons, Proxy.index, Path.checkSegment, if_neg (Nat.not_lt.mpr hname)]
      exact hq
  obtain ⟨hfirst, hrest⟩ := List.forall_mem_cons.mp (Path.short_of_check hcheck)
  obtain ⟨p, hp⟩ := hextend rest ⟨[], first⟩ hrest
  refine ⟨p, ?_⟩
  rw [Proxy.chain, Proxy.global, Path.checkSegment, if_neg (Nat.not_lt.mpr hfirst)]
  exact hp

/-- The names of a text make a proxy with their path. -/
theorem exists_proxy (hne : (Path.parse path).segments ≠ [])
    (hcheck : (Path.parse path).check settings.maxNameLength = .ok ()) :
    ∃ p, proxy settings path = .ok p ∧ p.path = Path.parse path := by
  obtain ⟨first, rest, hnames⟩ := List.exists_cons_of_ne_nil hne
  have hpath : Path.parse path = ⟨first :: rest⟩ := congrArg Path.mk hnames
  rw [hpath] at hcheck
  obtain ⟨p, hp⟩ := exists_chain hcheck
  refine ⟨p, ?_, ?_⟩
  · rw [proxy, hnames]
    dsimp only
    rw [hp]
    rfl
  · rw [Proxy.path, (Proxy.names_of_chain hp).1, ← hnames]
    exact Path.parse_text fun name hname => Path.isName_of_mem_parse hname

/-- A text without names names no proxy. -/
theorem proxy_of_segments_eq_nil (hroot : (Path.parse path).segments = []) :
    proxy settings path = .error .emptyPath := by
  rw [proxy, hroot]

/-- What is done on a proxy is done on the one that the text names. -/
theorem onProxy_of_proxy {α : Type} {p : Proxy} (hp : proxy h.settings path = .ok p)
    (act : Proxy → Calling α) : onProxy path act h = operate (act p) h := by
  rw [onProxy, bind_of_ok get_run, hp]
  rfl

/-- Without a proxy nothing is done. -/
theorem onProxy_of_error {α : Type} {e : Failure} (hp : proxy h.settings path = .error e)
    (act : Proxy → Calling α) : onProxy path act h = (.error e, h) := by
  rw [onProxy, bind_of_ok get_run, hp]
  rfl

/-- What follows an operation and leaves the handle alone leaves it as the operation did. -/
theorem snd_bind_operate {α β : Type} (act : Calling α) (k : α → Commanding β)
    (hk : ∀ a h, (k a h).2 = h) (h : Handle) : ((operate act >>= k) h).2 = (act h).2 := by
  have hrun : operate act h = ((act h).1.mapError .operation, (act h).2) := rfl
  cases hresult : (act h).1.mapError Failure.operation with
  | ok a =>
    rw [hresult] at hrun
    rw [bind_of_ok hrun]
    exact hk a _
  | error e =>
    rw [hresult] at hrun
    rw [bind_of_error hrun]

end Commanding

namespace Request

open Commanding

/-- A command that reads, reads at the path of its text. -/
theorem perform_get (hne : (Path.parse path).segments ≠ [])
    (hcheck : (Path.parse path).check h.settings.maxNameLength = .ok ()) :
    (get path).perform h = reading (Path.parse path) h := by
  obtain ⟨p, hp, hpath⟩ := exists_proxy hne hcheck
  rw [perform, reading]
  refine bind_congr_of_run ?_
  rw [onProxy_of_proxy hp, Proxy.get, hpath]

/-- A text that is not cut is the key in the global table. -/
theorem perform_set_of_none (hcut : cutLast path = none) (value : String) :
    (set path value).perform = storing .root (.ofText path) (.ofArgument value) := by
  rw [perform, hcut]
  rfl

/-- A text that is cut names the table before the cut and the key behind it. -/
theorem perform_set_of_some {table key : String} (hcut : cutLast path = some (table, key))
    (hne : (Path.parse table).segments ≠ [])
    (hcheck : (Path.parse table).check h.settings.maxNameLength = .ok ()) (value : String) :
    (set path value).perform h =
      storing (Path.parse table) (.ofText key) (.ofArgument value) h := by
  obtain ⟨p, hp, hpath⟩ := exists_proxy hne hcheck
  rw [perform, hcut, storing]
  refine bind_congr_of_run ?_
  rw [onProxy_of_proxy hp, Proxy.set, hpath]

/-- What ends in a dot is assigned under an empty key. -/
theorem perform_set_of_endsInDot (hne : (Path.parse path).segments ≠ [])
    (hcheck : (Path.parse path).check h.settings.maxNameLength = .ok ()) (hends : EndsInDot path)
    (value : String) : (set path value).perform h =
      storing (Path.parse path) (.ofText "") (.ofArgument value) h := by
  rcases cutLast_cases path with ⟨-, hdot, -⟩ | ⟨table, hcut, -, hpath⟩ | ⟨_, _, -, -, hnot, -⟩
  · exact absurd (List.mem_of_getLast? hends) hdot
  · rw [hpath] at hne hcheck ⊢
    exact perform_set_of_some hcut hne hcheck value
  · exact absurd hends hnot

/-- No table is named in front of the key. -/
theorem perform_set_of_leadsWithDot (hleads : LeadsWithDot path) (value : String) :
    (set path value).perform h = (.error .emptyPath, h) := by
  obtain ⟨hdot, hends, hone⟩ := hleads
  rcases cutLast_cases path with
    ⟨-, hnot, -⟩ | ⟨_, -, hends', -⟩ | ⟨table, key, hcut, -, -, -, hsegments⟩
  · exact absurd hdot hnot
  · exact absurd hends' hends
  · have hroot : (Path.parse table).segments = [] := by
      rw [hsegments, List.length_append] at hone
      exact List.eq_nil_of_length_eq_zero (Nat.succ.inj hone)
    rw [perform, hcut]
    exact bind_of_error (onProxy_of_error (proxy_of_segments_eq_nil hroot) _)

/-- Everything else is assigned where it is read. -/
theorem perform_set_of_split {names : List String} {key : String}
    (hsplit : (Path.parse path).segments = names ++ [key])
    (hcheck : (Path.parse path).check h.settings.maxNameLength = .ok ())
    (hends : ¬ EndsInDot path) (hleads : ¬ LeadsWithDot path) (value : String) :
    (set path value).perform h = storing ⟨names⟩ (.ofText key) (.ofArgument value) h := by
  rcases cutLast_cases path with
    ⟨hcut, -, hsegments⟩ | ⟨_, -, hends', -⟩ | ⟨table, last, hcut, hdot, -, -, hsegments⟩
  · rw [hsegments] at hsplit
    split at hsplit
    · exact absurd hsplit.symm (List.append_ne_nil_of_right_ne_nil _ (List.cons_ne_nil _ _))
    · obtain ⟨hnames, hkey⟩ := List.append_inj' (hsplit.symm.trans (List.nil_append _).symm) rfl
      rw [perform_set_of_none hcut, hnames, List.singleton_inj.mp hkey]
      rfl
  · exact absurd hends' hends
  · obtain ⟨hnames, hkey⟩ := List.append_inj' (hsegments.symm.trans hsplit) rfl
    obtain rfl := List.singleton_inj.mp hkey
    have htable : (Path.parse table).segments ≠ [] := by
      intro hroot
      refine hleads ⟨hdot, hends, ?_⟩
      rw [hsegments, hroot]
      rfl
    have hinit := Path.check_init hsegments hcheck
    rw [perform_set_of_some hcut htable hinit]
    exact congrArg (storing · _ _ h) (congrArg Path.mk hnames)

/-- An assignment that can be sent, and leaves its handle open, has sent one request to assign. -/
theorem exists_frame_storing {p : Path} {key value : Value}
    (hnames : ∀ name ∈ p.segments, Path.IsName name)
    (hcheck : p.check h.settings.maxNameLength = .ok ())
    (hformat : h.conn.format.isSupported = true) (hopen : h.isOpen = true)
    (hserver : Exchange.Consents h.conn)
    (hop : (Operation.set p key value).Encodable h.conn.format)
    (hafter : (storing p key value h).2.isOpen = true) :
    ∃ F : Frame h.conn.format,
      (storing p key value h).2.conn.line.written = h.conn.line.written ++ F.bytes ∧
      F.reading = .done (.set p (key.quantise h.conn.format) (value.quantise h.conn.format)) := by
  have hlater : (storing p key value h).2 = h.after (.set p key value) :=
    snd_bind_operate _ _ (fun _ _ => rfl) h
  have hpath : (Operation.set p key value).path.check h.settings.maxNameLength = .ok () := hcheck
  rw [hlater] at hafter ⊢
  obtain ⟨F, hwritten, hreading⟩ :=
    Handle.exists_frame_after hpath hformat hopen hserver hop hafter
  refine ⟨F, hwritten, hreading.trans ?_⟩
  rw [Operation.received, Path.parse_text hnames]

/-- A text that names something is read at its path. It is assigned at the same place, the last name
as the key of the table that the names before it lead to, if it does not end in a dot and has no dot
in front of its only name: then one request to assign is all that is sent. A text that ends in a dot
is assigned under the empty key of what it names, and one with a dot in front of its only name is
refused without a byte, whatever is asked of which server under which settings. -/
theorem perform_set_cases (hne : Path.parse path ≠ .root)
    (hcheck : (Path.parse path).check settings.maxNameLength = .ok ()) (value : String) :
    ∃ table key, (Path.parse path).parent? = some table ∧ (Path.parse path).leaf? = some key ∧
      key ≠ "" ∧ ∀ h : Handle, h.settings = settings →
        (get path).perform h = reading (Path.parse path) h ∧
        (EndsInDot path → (set path value).perform h =
          storing (Path.parse path) (.ofText "") (.ofArgument value) h) ∧
        (LeadsWithDot path → (set path value).perform h = (.error .emptyPath, h)) ∧
        (¬ EndsInDot path → ¬ LeadsWithDot path →
          (set path value).perform h = storing table (.ofText key) (.ofArgument value) h ∧
          (h.conn.format.isSupported = true → h.isOpen = true → Exchange.Consents h.conn →
            (Operation.set table (.ofText key) (.ofArgument value)).Encodable h.conn.format →
            ((set path value).perform h).2.isOpen = true →
            ∃ F : Frame h.conn.format,
              ((set path value).perform h).2.conn.line.written =
                h.conn.line.written ++ F.bytes ∧
              F.reading = .done (.set table (.ofText key)
                ((Value.ofArgument value).quantise h.conn.format)))) := by
  have hsegments : (Path.parse path).segments ≠ [] := fun hnil => hne (congrArg Path.mk hnil)
  have hsplit := (List.dropLast_concat_getLast hsegments).symm
  generalize (Path.parse path).segments.dropLast = names at hsplit
  generalize (Path.parse path).segments.getLast hsegments = key at hsplit
  have hnames : ∀ name ∈ names ++ [key], Path.IsName name := fun name hname =>
    Path.isName_of_mem_parse (hsplit ▸ hname)
  have hkey : Path.IsName key := hnames key (List.mem_append_right _ (List.mem_singleton_self _))
  refine ⟨⟨names⟩, key, Path.parent?_eq_some hsplit, Path.leaf?_eq_some hsplit, ?_, ?_⟩
  · rintro rfl
    exact hkey.1 rfl
  · rintro h rfl
    refine ⟨perform_get hsegments hcheck,
      fun hends => perform_set_of_endsInDot hsegments hcheck hends value,
      fun hleads => perform_set_of_leadsWithDot hleads value, fun hends hleads => ?_⟩
    have hstores := perform_set_of_split hsplit hcheck hends hleads value
    refine ⟨hstores, ?_⟩
    rw [hstores]
    exact exists_frame_storing (fun name hname => hnames name (List.mem_append_left _ hname))
      (Path.check_init hsplit hcheck)

/-- What `a..b` names is assigned as `b` in the table `a`. -/
theorem perform_set_cases_dotted :
    Path.parse "a..b" = ⟨["a", "b"]⟩ ∧ ∃ F : Frame .host,
      ((set "a..b" "true").perform (Handle.answered [0])).2.conn.line.written = F.bytes ∧
      F.reading = .done (.set ⟨["a"]⟩ (.ofText "b") (.boolean true)) := by
  have hpath : Path.parse "a..b" = ⟨["a", "b"]⟩ := by decide +kernel
  have hne : Path.parse "a..b" ≠ .root := by decide +kernel
  have hcheck : (Path.parse "a..b").check
      (Handle.answered [0]).settings.maxNameLength = .ok () := by
    rw [hpath]
    rfl
  have hvalue : Value.ofArgument "true" = .boolean true := by cbv
  have hop : (Operation.set ⟨["a"]⟩ (.ofText "b") (.ofArgument "true")).Encodable .host :=
    ⟨trivial, by decide +kernel⟩
  obtain ⟨table, key, htable, hkey, -, hcases⟩ := perform_set_cases hne hcheck "true"
  rw [hpath] at htable hkey
  cases htable
  cases hkey
  obtain ⟨-, -, -, hplain⟩ := hcases (Handle.answered [0]) rfl
  obtain ⟨-, hsends⟩ := hplain (by decide +kernel) (by decide +kernel)
  obtain ⟨F, hwritten, hreading⟩ :=
    hsends (by decide) rfl (Handle.consents_answered [0]) hop (by decide +kernel)
  refine ⟨hpath, F, hwritten, hreading.trans ?_⟩
  rw [hvalue]
  rfl

/-- Both `.a` and `a.` name `a`, and a server that says `true` is read there. But `.a` is refused
when it is to be assigned, without a byte, and `a.` is assigned under the empty key of a table `a`,
not under the key `a` of the global one. -/
theorem perform_set_misses :
    Path.parse ".a" = ⟨["a"]⟩ ∧ Path.parse "a." = ⟨["a"]⟩ ∧
    ((get ".a").perform (Handle.answered [2, 1])).1.toOption = some "true\n" ∧
    ((set ".a" "true").perform (Handle.answered [0])).1.toOption = none ∧
    ((set ".a" "true").perform (Handle.answered [0])).2.conn.line.written = [] ∧
    ((set "a" "true").perform (Handle.answered [0])).2.conn.line.written =
      [4, 0, 0, 0, 0, 3, 1, 0, 0, 0, 0x61, 2, 1] ∧
    ((set "a." "true").perform (Handle.answered [0])).2.conn.line.written =
      [4, 1, 0, 0, 0, 0x61, 3, 0, 0, 0, 0, 2, 1] := by
  decide +kernel

end Request

end CommandLine

end RemoteCall
