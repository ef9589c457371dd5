import Gnunet.Lib.Runs

/-!
# Runs with silent steps

Two runs of one machine have the same visible steps, and each has silent steps of its own. If a
silent step moves the machine a little, at a cost, and a visible step takes two machines no further
apart, then the costs of all steps bound how far apart the runs end.
-/

namespace Gnunet.Lib.SilentSteps

open Lib.Runs List

variable {σ ε : Type*} {step : σ → ε → Option σ}

def costs (step : σ → ε → Option σ) (cost : σ → ε → ℕ) : σ → List ε → ℕ
  | _, [] => 0
  | state, event :: events =>
    cost state event + match step state event with
      | none => 0
      | some next => costs step cost next events

theorem costs_cons {cost : σ → ε → ℕ} {state next : σ} {event : ε} {events : List ε}
    (h : step state event = some next) :
    costs step cost state (event :: events) = cost state event + costs step cost next events := by
  rw [costs, h]

section Related

variable {silent : ε → Bool} {cost : σ → ε → ℕ} {good : σ → ε → Prop}
  {related : ℕ → σ → σ → Prop}

theorem related_of_silent
    (hsilent : ∀ n s t event next, related n s t → silent event = true → good s event →
      step s event = some next → related (n + cost s event) next t)
    {n : ℕ} {s t last : σ} {events : List ε} (h : related n s t)
    (hevents : ∀ event ∈ events, silent event = true) (hgood : Along step good s events)
    (hrun : run step s events = some last) :
    related (n + costs step cost s events) last t := by
  induction events generalizing n s with
  | nil =>
    cases hrun
    exact h
  | cons event events ih =>
    obtain ⟨next, hnext, hrun⟩ := Option.bind_eq_some_iff.mp hrun
    rw [forall_mem_cons] at hevents
    rw [costs_cons hnext, ← Nat.add_assoc]
    exact ih (hsilent n s t event next h hevents.1 hgood.1 hnext) hevents.2
      (hgood.2 next hnext) hrun

/-- Runs with the same visible steps end no further apart than their steps cost. -/
theorem related_runs
    (hleft : ∀ n s t event next, related n s t → silent event = true → good s event →
      step s event = some next → related (n + cost s event) next t)
    (hright : ∀ n s t event next, related n s t → silent event = true → good t event →
      step t event = some next → related (n + cost t event) s next)
    (hboth : ∀ n s t event s' t', related n s t → silent event = false → good s event →
      good t event → step s event = some s' → step t event = some t' →
      related (n + cost s event + cost t event) s' t')
    {n : ℕ} {s t lastS lastT : σ} {first second : List ε} (h : related n s t)
    (hsame : first.filter (!silent ·) = second.filter (!silent ·))
    (hfirst : Along step good s first) (hsecond : Along step good t second)
    (hrunFirst : run step s first = some lastS) (hrunSecond : run step t second = some lastT) :
    related (n + costs step cost s first + costs step cost t second) lastS lastT := by
  -- over the first run, and over the second one up to the next visible step
  induction first generalizing n s t second with
  | nil =>
    cases hrunFirst
    have hsilent : ∀ event ∈ second, silent event = true := by
      intro event hmem
      have hnot := filter_eq_nil_iff.mp hsame.symm event hmem
      simpa using hnot
    exact @related_of_silent _ _ _ _ _ _ (fun n a b ↦ related n b a)
      (fun n a b event next hab ↦ hright n b a event next hab) n t _ _ second h hsilent hsecond
      hrunSecond
  | cons event first ih =>
    obtain ⟨next, hnext, hrest⟩ := Option.bind_eq_some_iff.mp hrunFirst
    cases hevent : silent event with
    | true =>
      rw [filter_cons_of_neg (by simp [hevent])] at hsame
      rw [costs_cons hnext, ← Nat.add_assoc]
      exact ih (hleft n s t event next h hevent hfirst.1 hnext) hsame (hfirst.2 next hnext)
        hsecond hrest hrunSecond
    | false =>
      rw [filter_cons_of_pos (by simp [hevent])] at hsame
      induction second generalizing n t with
      | nil => cases hsame
      | cons event' second ihSecond =>
        obtain ⟨next', hnext', hrest'⟩ := Option.bind_eq_some_iff.mp hrunSecond
        cases hevent' : silent event' with
        | true =>
          rw [filter_cons_of_neg (by simp [hevent'])] at hsame
          have hcost := ihSecond (hright n s t event' next' h hevent' hsecond.1 hnext')
            hsame (hsecond.2 next' hnext') hrest'
          rw [costs_cons hnext']
          convert hcost using 1
          omega
        | false =>
          rw [filter_cons_of_pos (by simp [hevent'])] at hsame
          obtain ⟨rfl, hrestSame⟩ := cons.inj hsame
          have hcost := ih (hboth n s t event next next' h hevent hfirst.1 hsecond.1 hnext hnext')
            hrestSame (hfirst.2 next hnext) (hsecond.2 next' hnext') hrest hrest'
          rw [costs_cons hnext, costs_cons hnext']
          convert hcost using 1
          omega

end Related

end Gnunet.Lib.SilentSteps
