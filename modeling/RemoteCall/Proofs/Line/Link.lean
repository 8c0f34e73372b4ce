import RemoteCall.Line.Link
import RemoteCall.Proofs.Line.Supply

/-!
# Answers on a link

A link that started with nothing to read carries the part of the answer that the client has been
given. News from the server lengthens that part and runs the step again; without news the step is
done, and the silence behind the answer is taken away as it was put there.
-/

namespace RemoteCall.Link

variable {α : Type} {answer : List UInt8 → List UInt8} {step : Line → α × Line} {l : Link}
  {start : Line} {arrived news sent : List UInt8}

/-- Silence is met as a timeout. -/
theorem meets_silence : Inbound.Meets [silence] .timeout [] :=
  .fault (.plain .timedOut) [] (by decide)

/-- Input that is used up but for the silence behind it is used up. -/
theorem withoutSilence_of_brings {input : Inbound} (h : input.Brings [] [silence]) :
    withoutSilence input = ⟨[], []⟩ := by
  rw [h.eq_of_nil]
  rfl

/-- Since this start only input has arrived on the link, and it is this answer. -/
structure Carries (l : Link) (start : Line) (arrived : List UInt8) : Prop where
  line_eq : l.line = { start with inbound := l.line.inbound }
  brings : l.line.inbound.Brings arrived []
  delivered_eq : l.delivered = arrived.length

/-- A line with nothing to read carries nothing. -/
theorem carries_start (h : start.inbound = ⟨[], []⟩) : Carries { line := start } start [] := by
  refine ⟨rfl, ?_, rfl⟩
  rw [h]
  exact Inbound.brings_empty

namespace Carries

/-- What a step finds on the link. -/
theorem facing (h : l.Carries start arrived) :
    ∃ input : Inbound, input.Brings arrived [silence] ∧
      l.facing = { start with inbound := input } := by
  refine ⟨l.line.inbound.extend [silence], h.brings.extend [silence], ?_⟩
  rw [Link.facing, h.line_eq]

/-- A longer answer is carried in full. -/
theorem deliver (h : l.Carries start arrived) (hnews : news ≠ []) :
    (l.deliver (arrived ++ news)).Carries start (arrived ++ news) := by
  have hdrop : (arrived ++ news).drop l.delivered = news := by
    rw [h.delivered_eq, List.drop_left]
  have hsome : news.isEmpty = false := by
    cases news with
    | nil => exact absurd rfl hnews
    | cons b bs => rfl
  have hinbound : (l.deliver (arrived ++ news)).line.inbound =
      l.line.inbound.extend [.chunk news] := by
    simp only [Link.deliver, hdrop, hsome, Bool.false_eq_true, ↓reduceIte]
  refine ⟨?_, ?_, ?_⟩
  · have hline := h.line_eq
    simp only [Link.deliver]
    rw [hline]
  · rw [hinbound]
    exact h.brings.extend_chunk hnews
  · rw [Link.deliver, hdrop, h.delivered_eq, List.length_append]

/-- News from the server runs the step once more. -/
theorem perform_of_news (h : l.Carries start arrived) (hnews : news ≠ [])
    (hstep : ∀ input : Inbound, input.Brings arrived [silence] →
      (step { start with inbound := input }).2.written = sent)
    (hanswer : answer sent = arrived ++ news) (rounds : Nat) :
    perform answer step (rounds + 1) l =
      perform answer step rounds (l.deliver (arrived ++ news)) := by
  obtain ⟨input, hinput, hfacing⟩ := h.facing
  have hsent : answer (step l.facing).2.written = arrived ++ news := by
    rw [hfacing, hstep input hinput, hanswer]
  have hmore : (l.deliver (arrived ++ news)).delivered ≠ l.delivered := by
    have hpos := List.length_pos_iff.mpr hnews
    rw [(h.deliver hnews).delivered_eq, h.delivered_eq, List.length_append]
    omega
  rw [perform]
  simp only [hsent]
  exact if_neg hmore

/-- Without news from the server the step is done. -/
theorem perform_of_silence (h : l.Carries start arrived)
    (hstep : ∀ input : Inbound, input.Brings arrived [silence] →
      (step { start with inbound := input }).2.written = sent)
    (hanswer : answer sent = arrived) (rounds : Nat) :
    ∃ input : Inbound, input.Brings arrived [silence] ∧
      perform answer step rounds l =
        ((step { start with inbound := input }).1,
          { l with line := { (step { start with inbound := input }).2 with
            inbound := withoutSilence (step { start with inbound := input }).2.inbound } }) := by
  obtain ⟨input, hinput, hfacing⟩ := h.facing
  have hsent : answer (step l.facing).2.written = arrived := by
    rw [hfacing, hstep input hinput, hanswer]
  have hsame : (l.deliver arrived).delivered = l.delivered := by
    simp only [Link.deliver, h.delivered_eq, List.drop_length, List.length_nil, Nat.add_zero]
  refine ⟨input, hinput, ?_⟩
  rw [← hfacing]
  cases rounds with
  | zero => rfl
  | succ rounds =>
    rw [perform]
    simp only [hsent]
    exact if_pos hsame

end Carries

/-- A step that waits for one answer and then needs no other is run on the whole of that answer. -/
theorem perform_of_answer (hdrained : start.inbound = ⟨[], []⟩) (hnews : news ≠ [])
    (hwaits : ∀ input : Inbound, input.Brings [] [silence] →
      (step { start with inbound := input }).2.written = sent)
    (hcomplete : ∀ input : Inbound, input.Brings news [silence] →
      (step { start with inbound := input }).2.written = sent)
    (hanswer : answer sent = news) (rounds : Nat) :
    ∃ input : Inbound, input.Brings news [silence] ∧ ∀ result later,
      step { start with inbound := input } = (result, later) →
      later.inbound.Brings [] [silence] →
      ∃ last, perform answer step (rounds + 1) { line := start } = (result, last) ∧
        last.line = { later with inbound := ⟨[], []⟩ } := by
  have hnothing : Carries { line := start } start [] := carries_start hdrained
  have hwhole := hnothing.deliver hnews
  have hfirst := hnothing.perform_of_news hnews hwaits hanswer rounds
  obtain ⟨input, hin, hsecond⟩ := hwhole.perform_of_silence hcomplete hanswer rounds
  refine ⟨input, hin, fun result later hstep hrest => ?_⟩
  rw [hstep, withoutSilence_of_brings hrest] at hsecond
  exact ⟨_, hfirst.trans hsecond, rfl⟩

/-- What holds of a step whatever its input is holds of what a run of steps comes to. -/
theorem fst_perform {p : α → Prop} (answer : List UInt8 → List UInt8) (rounds : Nat) (l : Link)
    (hstep : ∀ input : Inbound, p (step { l.line with inbound := input }).1) :
    p (perform answer step rounds l).1 := by
  induction rounds generalizing l with
  | zero => exact hstep _
  | succ rounds ih =>
    rw [perform]
    dsimp only
    split
    · exact hstep _
    · exact ih _ hstep

end RemoteCall.Link
