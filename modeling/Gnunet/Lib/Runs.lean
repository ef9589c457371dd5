import Mathlib.Data.List.Basic

/-!
# Runs of partial deterministic machines

A machine is a step function that either yields the next state or stops.  `run` folds it over a
list of events and `Along` says that every step taken by that run meets a condition on the state
before it.  The rules below turn one-step facts into facts about whole runs.
-/

namespace Gnunet.Lib.Runs

variable {σ ε : Type*} {step : σ → ε → Option σ}

/-- Feed a list of events to the machine; `none` once a step has stopped it. -/
def run (step : σ → ε → Option σ) : σ → List ε → Option σ
  | state, [] => some state
  | state, event :: events => (step state event).bind fun next ↦ run step next events

@[simp] theorem run_nil (state : σ) : run step state [] = some state := rfl

@[simp] theorem run_cons (state : σ) (event : ε) (events : List ε) :
    run step state (event :: events) =
      (step state event).bind fun next ↦ run step next events := rfl

theorem run_append (state : σ) (first second : List ε) :
    run step state (first ++ second) =
      (run step state first).bind fun next ↦ run step next second := by
  induction first generalizing state with
  | nil => rfl
  | cons event events ih =>
    cases h : step state event with
    | none => simp [h]
    | some next => simp [h, ih]

/-- Every step that the run takes meets `condition` in the state it starts from. -/
def Along (step : σ → ε → Option σ) (condition : σ → ε → Prop) : σ → List ε → Prop
  | _, [] => True
  | state, event :: events =>
    condition state event ∧
      ∀ next, step state event = some next → Along step condition next events

instance decidableAlong {condition : σ → ε → Prop} [∀ state, DecidablePred (condition state)] :
    (state : σ) → (events : List ε) → Decidable (Along step condition state events)
  | _, [] => .isTrue trivial
  | state, event :: events =>
    match h : step state event with
    | none => decidable_of_iff (condition state event) (by simp [Along, h])
    | some next =>
      have : Decidable (Along step condition next events) := decidableAlong next events
      decidable_of_iff (condition state event ∧ Along step condition next events)
        (by simp [Along, h])

variable {condition : σ → ε → Prop} {events : List ε} {invariant : σ → Prop} {state : σ}

/-- A condition holds along the run if the events meet it in any state. -/
theorem along_of_mem (state : σ) (h : ∀ event ∈ events, ∀ state, condition state event) :
    Along step condition state events := by
  induction events generalizing state with
  | nil => trivial
  | cons event events ih =>
    rw [List.forall_mem_cons] at h
    exact ⟨h.1 state, fun next _ ↦ ih next h.2⟩

theorem along_of_forall (h : ∀ state event, condition state event) (state : σ) (events : List ε) :
    Along step condition state events :=
  along_of_mem state fun event _ state ↦ h state event

/-- An invariant that every conditioned step keeps holds in the state a conditioned run reaches. -/
theorem run_invariant (hstep : ∀ state event next, invariant state → condition state event →
      step state event = some next → invariant next) {last : σ} (hstart : invariant state)
    (halong : Along step condition state events) (hrun : run step state events = some last) :
    invariant last := by
  induction events generalizing state with
  | nil =>
    cases hrun
    exact hstart
  | cons event events ih =>
    obtain ⟨next, hnext, hrest⟩ := Option.bind_eq_some_iff.mp hrun
    exact ih (hstep state event next hstart halong.1 hnext) (halong.2 next hnext) hrest

section Total

variable (hstep : ∀ state event, invariant state → condition state event →
  ∃ next, step state event = some next ∧ invariant next) (hstart : invariant state)
  (halong : Along step condition state events)
include hstep hstart halong

/-- If every conditioned step from an invariant state goes on, a conditioned run is never stopped.
-/
theorem run_total : ∃ last, run step state events = some last ∧ invariant last := by
  induction events generalizing state with
  | nil => exact ⟨state, rfl, hstart⟩
  | cons event events ih =>
    obtain ⟨next, hnext, hinv⟩ := hstep state event hstart halong.1
    obtain ⟨last, hlast, hend⟩ := ih hinv (halong.2 next hnext)
    exact ⟨last, by simp [hnext, hlast], hend⟩

/-- What holds of every conditioned step from an invariant state holds along the run. -/
theorem along_of_invariant {property : σ → ε → Prop}
    (hproperty : ∀ state event, invariant state → condition state event → property state event) :
    Along step property state events := by
  induction events generalizing state with
  | nil => trivial
  | cons event events ih =>
    refine ⟨hproperty state event hstart halong.1, fun next hnext ↦ ?_⟩
    obtain ⟨_, hother, hinv⟩ := hstep state event hstart halong.1
    cases hnext.symm.trans hother
    exact ih hinv (halong.2 next hnext)

end Total

/-- Steps that agree up to maps of the states and the events make runs that do. -/
theorem run_map {f : σ → σ} {g : ε → ε} (hstep : ∀ state event, condition state event →
      step (f state) (g event) = (step state event).map f)
    (halong : Along step condition state events) :
    run step (f state) (events.map g) = (run step state events).map f := by
  induction events generalizing state with
  | nil => rfl
  | cons event events ih =>
    rw [List.map_cons, run_cons, run_cons, hstep state event halong.1]
    cases hnext : step state event with
    | none => rfl
    | some next => exact ih (halong.2 next hnext)

/-- A fold goes through if each step goes on from what holds after the events before it. -/
theorem foldlM_total (holds : σ → List ε → Prop) (hstart : holds state [])
    (hstep : ∀ seen event rest state, events = seen ++ event :: rest → event ∈ events →
      holds state seen → ∃ next, step state event = some next ∧ holds next (seen ++ [event])) :
    ∃ last, events.foldlM step state = some last ∧ holds last events := by
  suffices hrest : ∀ rest seen state, events = seen ++ rest → holds state seen →
      ∃ last, rest.foldlM step state = some last ∧ holds last events from
    hrest events [] state rfl hstart
  intro rest
  induction rest with
  | nil =>
    intro seen state heq hseen
    rw [List.append_nil] at heq
    exact ⟨state, rfl, heq ▸ hseen⟩
  | cons event rest ih =>
    intro seen state heq hseen
    obtain ⟨next, hnext, hholds⟩ := hstep seen event rest state heq (by simp [heq]) hseen
    obtain ⟨last, hlast, hend⟩ := ih (seen ++ [event]) next (by simp [heq]) hholds
    exact ⟨last, by rw [List.foldlM_cons, hnext]; exact hlast, hend⟩

/-- What every step that goes on needs holds along a run that is never stopped. -/
theorem along_of_run
    (hstep : ∀ state event next, step state event = some next → condition state event) {last : σ}
    (hrun : run step state events = some last) :
    Along step condition state events := by
  induction events generalizing state with
  | nil => trivial
  | cons event events ih =>
    obtain ⟨next, hnext, hrest⟩ := Option.bind_eq_some_iff.mp hrun
    refine ⟨hstep state event next hnext, fun other hother ↦ ?_⟩
    cases hnext.symm.trans hother
    exact ih hrest

theorem Along.imp {first second : σ → ε → Prop}
    (himp : ∀ state event, first state event → second state event)
    (halong : Along step first state events) : Along step second state events := by
  induction events generalizing state with
  | nil => trivial
  | cons event events ih =>
    exact ⟨himp state event halong.1, fun next hnext ↦ ih (halong.2 next hnext)⟩

theorem Along.and {first second : σ → ε → Prop} (hfirst : Along step first state events)
    (hsecond : Along step second state events) :
    Along step (fun state event ↦ first state event ∧ second state event) state events := by
  induction events generalizing state with
  | nil => trivial
  | cons event events ih =>
    exact ⟨⟨hfirst.1, hsecond.1⟩, fun next hnext ↦ ih (hfirst.2 next hnext) (hsecond.2 next hnext)⟩

/-- Conditions that agree in every invariant state hold along the same runs. -/
theorem along_iff_along {first second : σ → ε → Prop}
    (hstep : ∀ state event next, invariant state → condition state event → second state event →
      step state event = some next → invariant next)
    (hagree : ∀ state event, invariant state → condition state event →
      (first state event ↔ second state event)) (hstart : invariant state)
    (halong : Along step condition state events) :
    Along step first state events ↔ Along step second state events := by
  induction events generalizing state with
  | nil => exact Iff.rfl
  | cons event events ih =>
    obtain ⟨hcondition, hrest⟩ := halong
    simp only [Along, hagree state event hstart hcondition]
    refine and_congr_right fun hsecond ↦ forall_congr' fun next ↦ forall_congr' fun hnext ↦ ?_
    exact ih (hstep state event next hstart hcondition hsecond hnext) (hrest next hnext)

end Gnunet.Lib.Runs
