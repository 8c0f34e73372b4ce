/-!
# Running computations

A computation with a state and a failure is run on a state. A sequence of two runs the second on
what the first has left, unless the first fails; then its failure and its state are those of the
whole.
-/

namespace RemoteCall

section

variable {ε σ α β : Type} {x : ExceptT ε (StateM σ) α} {k : α → ExceptT ε (StateM σ) β} {s s' : σ}

/-- A sequence goes on from where a successful first part has arrived. -/
theorem bind_of_ok {a : α} (h : x s = (.ok a, s')) : (x >>= k) s = k a s' := by
  change (ExceptT.bind x k) s = _
  simp only [ExceptT.bind, ExceptT.mk, bind, StateT.bind, h, ExceptT.bindCont]

/-- A failure of the first part is the failure of a sequence. -/
theorem bind_of_error {e : ε} (h : x s = (.error e, s')) : (x >>= k) s = (.error e, s') := by
  change (ExceptT.bind x k) s = _
  simp only [ExceptT.bind, ExceptT.mk, bind, StateT.bind, h, ExceptT.bindCont]
  rfl

/-- A sequence that succeeds does so in both its parts. -/
theorem exists_of_bind_ok {b : β} (h : (x >>= k) s = (.ok b, s')) :
    ∃ a t, x s = (.ok a, t) ∧ k a t = (.ok b, s') := by
  cases hx : x s with
  | mk result t =>
    cases result with
    | ok a =>
      rw [bind_of_ok hx] at h
      exact ⟨a, t, rfl, h⟩
    | error e =>
      rw [bind_of_error hx] at h
      exact nomatch congrArg Prod.fst h

/-- A sequence depends on its second part only where the first one arrives. -/
theorem bind_congr_of_ok {k' : α → ExceptT ε (StateM σ) β}
    (h : ∀ a s', x s = (.ok a, s') → k a s' = k' a s') : (x >>= k) s = (x >>= k') s := by
  cases hx : x s with
  | mk result s' =>
    cases result with
    | ok a => rw [bind_of_ok hx, bind_of_ok hx, h a s' hx]
    | error e => rw [bind_of_error hx, bind_of_error hx]

/-- A sequence depends on what its first part does in the state at hand. -/
theorem bind_congr_of_run {x' : ExceptT ε (StateM σ) α} (h : x s = x' s) :
    (x >>= k) s = (x' >>= k) s := by
  cases hx : x s with
  | mk result s' =>
    cases result with
    | ok a => rw [bind_of_ok hx, bind_of_ok (h.symm.trans hx)]
    | error e => rw [bind_of_error hx, bind_of_error (h.symm.trans hx)]

@[simp] theorem get_run : (get : ExceptT ε (StateM σ) σ) s = (.ok s, s) := rfl

@[simp] theorem ofExcept_error_run (e : ε) :
    (MonadExcept.ofExcept (.error e) : ExceptT ε (StateM σ) α) s = (.error e, s) := rfl

/-- Observing a computation turns its outcome into a value. -/
@[simp] theorem observing_run : (observing x : ExceptT ε (StateM σ) (Except ε α)) s =
    (.ok (x s).1, (x s).2) := by
  cases h : x s with
  | mk outcome later =>
    simp only [observing, tryCatch, tryCatchThe, MonadExceptOf.tryCatch, ExceptT.tryCatch,
      ExceptT.mk, bind, ExceptT.bind, StateT.bind, ExceptT.bindCont, h]
    cases outcome <;> rfl

/-- What a computation comes to is a matter of this view of the state alone, and so is the view of
what it leaves, whose size it never lets grow. -/
structure Respects {γ : Type} (view : σ → γ) (size : γ → Nat) (x : ExceptT ε (StateM σ) α) :
    Prop where
  alike : ∀ s s', view s = view s' → (x s).1 = (x s').1 ∧ view (x s).2 = view (x s').2
  shrinks : ∀ s, size (view (x s).2) ≤ size (view s)

section

variable {γ : Type} {view : σ → γ} {size : γ → Nat}

/-- Giving a value respects every view. -/
theorem respects_pure (a : α) : Respects view size (pure a : ExceptT ε (StateM σ) α) :=
  ⟨fun _ _ hview => ⟨rfl, hview⟩, fun _ => Nat.le_refl _⟩

/-- Failing respects every view. -/
theorem respects_throw (e : ε) : Respects view size (throw e : ExceptT ε (StateM σ) α) :=
  ⟨fun _ _ hview => ⟨rfl, hview⟩, fun _ => Nat.le_refl _⟩

/-- A settled result respects every view. -/
theorem respects_ofExcept (r : Except ε α) :
    Respects view size (MonadExcept.ofExcept r : ExceptT ε (StateM σ) α) := by
  cases r with
  | ok a => exact respects_pure a
  | error e => exact respects_throw e

/-- Computations that respect a view respect it one after the other. -/
theorem Respects.bind (hx : Respects view size x) (hk : ∀ a, Respects view size (k a)) :
    Respects view size (x >>= k) := by
  constructor
  · intro s s' hview
    obtain ⟨hresult, hleft⟩ := hx.alike s s' hview
    cases hs : x s with
    | mk result t =>
      cases hs' : x s' with
      | mk result' t' =>
        rw [hs, hs'] at hresult hleft
        obtain rfl : result = result' := hresult
        cases result with
        | ok a =>
          rw [bind_of_ok hs, bind_of_ok hs']
          exact (hk a).alike t t' hleft
        | error e =>
          rw [bind_of_error hs, bind_of_error hs']
          exact ⟨rfl, hleft⟩
  · intro s
    have hfirst := hx.shrinks s
    cases hs : x s with
    | mk result t =>
      rw [hs] at hfirst
      cases result with
      | ok a =>
        rw [bind_of_ok hs]
        exact Nat.le_trans ((hk a).shrinks t) hfirst
      | error e =>
        rw [bind_of_error hs]
        exact hfirst

/-- Taking note of a failure respects what the computation respects. -/
theorem Respects.observing (hx : Respects view size x) :
    Respects view size (observing x : ExceptT ε (StateM σ) (Except ε α)) := by
  constructor
  · intro s s' hview
    obtain ⟨hresult, hleft⟩ := hx.alike s s' hview
    rw [observing_run, observing_run, hresult]
    exact ⟨rfl, hleft⟩
  · intro s
    rw [observing_run]
    exact hx.shrinks s

/-- What the view shows of the state may be asked for. -/
theorem respects_get_bind {p : σ → β} {l : β → ExceptT ε (StateM σ) α}
    (hp : ∀ s s', view s = view s' → p s = p s') (hl : ∀ b, Respects view size (l b)) :
    Respects view size (get >>= fun s => l (p s)) := by
  constructor
  · intro s s' hview
    rw [bind_of_ok get_run, bind_of_ok get_run, hp s s' hview]
    exact (hl (p s')).alike s s' hview
  · intro s
    rw [bind_of_ok get_run]
    exact (hl (p s)).shrinks s

/-- A loop respects the view if every bound on its rounds does, and any two bounds above the size
make the same of it. -/
theorem Respects.of_bound {run : Nat → ExceptT ε (StateM σ) α} {rounds : σ → Nat}
    (hrun : ∀ n, Respects view size (run n))
    (hsame : ∀ s n m, size (view s) < n → size (view s) < m → run n s = run m s)
    (hrounds : ∀ s, size (view s) < rounds s) :
    Respects view size (fun s => run (rounds s) s) := by
  have hbound : ∀ s, run (rounds s) s = run (size (view s) + 1) s := fun s =>
    hsame s _ _ (hrounds s) (Nat.lt_succ_self _)
  constructor
  · intro s s' hview
    rw [hbound s, hbound s', ← hview]
    exact (hrun _).alike s s' hview
  · intro s
    exact (hrun (rounds s)).shrinks s

end

end

end RemoteCall
