import RemoteCall.Proofs.Wire.Accepted

/-!
# Readers that come to an end

What a reader takes is the beginning of the flow. It takes the end of the stream only to fail for
good, and it never takes that for a farewell. The decoder is bounded by a budget, and running out of
it would look like the end of the stream. That never happens: an item, and then the pairs behind it,
take something off the flow before they go on, so the budget that the unread input gives is enough.
-/

namespace RemoteCall

section

variable {τ α β : Type} {view : τ → Flow} {x : ExceptT Error (StateM τ) α}
  {k : α → ExceptT Error (StateM τ) β}

/-- The computation takes the beginning of the flow, and the end of the stream only to fail for
good. It does not fail with a farewell. -/
structure Takes (view : τ → Flow) (x : ExceptT Error (StateM τ) α) : Prop where
  beginning : ∀ s, ∃ taken, view s = taken ++ view (x s).2 ∧
    (Find.ending ∈ taken → ∃ e, (x s).1 = .error e ∧ e.severity = .fatal)
  stays : ∀ s e, (x s).1 = .error e → e.severity ≠ .done

/-- What leaves the view alone takes nothing. -/
theorem Takes.of_view_eq (hview : ∀ s, view (x s).2 = view s)
    (hstays : ∀ s e, (x s).1 = .error e → e.severity ≠ .done) : Takes view x :=
  ⟨fun s => ⟨[], (hview s).symm, fun hmem => absurd hmem List.not_mem_nil⟩, hstays⟩

/-- Giving a value takes nothing. -/
theorem takes_pure (a : α) : Takes view (pure a : ExceptT Error (StateM τ) α) :=
  .of_view_eq (fun _ => rfl) fun _ _ he => nomatch he

/-- Failing takes nothing, unless it is a farewell. -/
theorem takes_throw {e : Error} (he : e.severity ≠ .done) :
    Takes view (throw e : ExceptT Error (StateM τ) α) := by
  refine .of_view_eq (fun _ => rfl) ?_
  rintro s e' ⟨⟩
  exact he

/-- Computations in a row take one beginning after the other. -/
theorem Takes.bind (hx : Takes view x) (hk : ∀ a, Takes view (k a)) : Takes view (x >>= k) := by
  constructor
  · intro s
    obtain ⟨taken, hview, hend⟩ := hx.beginning s
    cases hs : x s with
    | mk result t =>
      rw [hs] at hview hend
      cases result with
      | error e =>
        rw [bind_of_error hs]
        refine ⟨taken, hview, fun hmem => ?_⟩
        obtain ⟨e', he', hfatal⟩ := hend hmem
        cases he'
        exact ⟨e, rfl, hfatal⟩
      | ok a =>
        rw [bind_of_ok hs]
        obtain ⟨more, hmore, hlast⟩ := (hk a).beginning t
        refine ⟨taken ++ more, ?_, fun hmem => ?_⟩
        · rw [hview, hmore, List.append_assoc]
        · rcases List.mem_append.mp hmem with hmem | hmem
          · obtain ⟨e, he, -⟩ := hend hmem
            exact nomatch he
          · exact hlast hmem
  · intro s e he
    cases hs : x s with
    | mk result t =>
      cases result with
      | error e' =>
        rw [bind_of_error hs] at he
        cases he
        exact hx.stays s e (congrArg Prod.fst hs)
      | ok a =>
        rw [bind_of_ok hs] at he
        exact (hk a).stays t e he

/-- The state may be asked for. -/
theorem takes_get_bind {l : τ → ExceptT Error (StateM τ) α} (hl : ∀ s, Takes view (l s)) :
    Takes view (get >>= l) := by
  constructor
  · intro s
    rw [bind_of_ok get_run]
    exact (hl s).beginning s
  · intro s e he
    rw [bind_of_ok get_run] at he
    exact (hl s).stays s e he

end

/-- No failure of the line is a farewell. -/
theorem Error.severity_ofIo_ne_done (e : IoError) : (ofIo e).severity ≠ .done := by
  unfold ofIo
  split <;> exact nofun

namespace Flow

/-- A fixed number of bytes is the beginning of the flow, and behind an end of the stream there is
none. -/
theorem exists_taken (n : Nat) (flow : Flow) : ∃ taken, flow = taken ++ (take n flow).2 ∧
    (Find.ending ∈ taken → (take n flow).1 = .error .eof) := by
  fun_induction take n flow with
  | case1 => exact ⟨[], rfl, fun hmem => absurd hmem List.not_mem_nil⟩
  | case2 => exact ⟨[], rfl, fun hmem => absurd hmem List.not_mem_nil⟩
  | case3 => exact ⟨[.ending], rfl, fun _ => rfl⟩
  | case4 n e rest =>
    refine ⟨[.fault e], rfl, fun hmem => ?_⟩
    cases List.mem_singleton.mp hmem
  | case5 n b rest ih =>
    obtain ⟨taken, hflow, hend⟩ := ih
    refine ⟨.byte b :: taken, congrArg _ hflow, fun hmem => ?_⟩
    rcases List.mem_cons.mp hmem with hmem | hmem
    · cases hmem
    · rw [hend hmem]
      rfl

/-- Taking bytes does not fail with a farewell. -/
theorem severity_take_ne_done (n : Nat) (flow : Flow) {e : Error}
    (he : (take n flow).1 = .error e) : e.severity ≠ .done := by
  fun_induction take n flow with
  | case1 => cases he
  | case2 =>
    cases he
    decide
  | case3 =>
    cases he
    decide
  | case4 n e' rest =>
    cases he
    exact Error.severity_ofIo_ne_done e'
  | case5 n b rest ih =>
    cases hrest : (take n rest).1 with
    | ok bytes =>
      rw [hrest] at he
      cases he
    | error e' =>
      rw [hrest] at he
      cases he
      exact ih hrest

end Flow

namespace Reader

variable {f : Format}

/-- A reader of so many bytes takes the beginning of the flow. -/
theorem takes_take (n : Nat) : Takes Inbound.flow (take n) := by
  have hfill : ∀ i : Inbound, ((take n i).1, (take n i).2.flow) = Flow.take n i.flow :=
    Inbound.fill_flow n
  constructor
  · intro i
    obtain ⟨hresult, hleft⟩ := Prod.mk.inj (hfill i)
    obtain ⟨taken, hflow, hend⟩ := Flow.exists_taken n i.flow
    rw [← hleft] at hflow
    exact ⟨taken, hflow, fun hmem => ⟨.eof, hresult.trans (hend hmem), rfl⟩⟩
  · intro i e he
    exact Flow.severity_take_ne_done n i.flow ((congrArg Prod.fst (hfill i)).symm.trans he)

/-- A reader of a byte takes the beginning of the flow. -/
theorem takes_byte : Takes Inbound.flow byte := (takes_take 1).bind fun _ => takes_pure _

/-- The decoder takes the beginning of the flow. -/
theorem closed_takes : Closed (Takes Inbound.flow) where
  result := takes_pure
  ending := takes_throw nofun
  refusal _ := takes_throw nofun
  bytes := takes_take
  seq hx hk := hx.bind hk
  tagged := by
    intro β k hk
    refine takes_byte.bind fun b => ?_
    rcases hk b with hb | ⟨-, hb⟩
    · exact hb
    · rw [hb]
      exact takes_throw nofun

/-- A reader of a value takes the beginning of the flow. -/
theorem takes_value (f : Format) : Takes Inbound.flow (value f) := by
  refine takes_get_bind fun i => (closed_takes.item f _ 0).bind fun found => ?_
  cases found with
  | value v => exact takes_pure v
  | mark tag => exact takes_throw nofun

/-! ### The budget of the decoder -/

mutual

/-- Reading an item inside `depth` tables does not run out of this budget. -/
def ItemFits (f : Format) : Nat → Nat → Inbound → Prop
  | 0, _, _ => False
  | budget + 1, depth, i =>
    ∀ j, byte i = (.ok Tag.table.toByte, j) → depth < maxDepth → PairsFit f budget (depth + 1) j

/-- Reading the pairs of a table does not run out of this budget. -/
def PairsFit (f : Format) : Nat → Nat → Inbound → Prop
  | 0, _, _ => False
  | budget + 1, depth, i =>
    ItemFits f budget depth i ∧
    ∀ k j, item f budget depth i = (.ok (.value k), j) →
      ItemFits f budget depth j ∧
      ∀ v rest, item f budget depth j = (.ok (.value v), rest) → PairsFit f budget depth rest

end

mutual

/-- A budget of two steps for each find is enough for an item. -/
theorem itemFits_of_le {budget depth : Nat} {i : Inbound}
    (hbudget : 2 * i.flow.length + 1 ≤ budget) : ItemFits f budget depth i := by
  obtain ⟨n, rfl⟩ : ∃ n, budget = n + 1 := ⟨budget - 1, by omega⟩
  rw [ItemFits]
  intro j hbyte hdepth
  have hless := length_lt_of_byte hbyte
  exact pairsFit_of_le (by omega)

/-- A budget of two steps for each find is enough for pairs. -/
theorem pairsFit_of_le {budget depth : Nat} {i : Inbound}
    (hbudget : 2 * i.flow.length + 2 ≤ budget) : PairsFit f budget depth i := by
  obtain ⟨n, rfl⟩ : ∃ n, budget = n + 1 := ⟨budget - 1, by omega⟩
  rw [PairsFit]
  refine ⟨itemFits_of_le (by omega), fun k j hkey => ?_⟩
  have hless := length_lt_of_item hkey
  refine ⟨itemFits_of_le (by omega), fun v rest hvalue => ?_⟩
  have hfewer := length_lt_of_item hvalue
  exact pairsFit_of_le (by omega)

end

end Reader

end RemoteCall
