/-
Module: LeilFS.Lib.StepSystem
Purpose: Runs of deterministic step functions and the invariants they keep.
Trusted boundary: none
-/
import Mathlib

namespace StepSystem

open List

/-!
A system is a step function on states and events; whatever a step may choose is
part of its event.  `run` executes a list of events, and `Along` says that every
event of a run meets a condition in the state in which it is executed.
-/

variable {σ τ ε : Type*}

/-- The state after a list of events. -/
def run (step : σ → ε → σ) (s : σ) (events : List ε) : σ :=
  events.foldl step s

@[simp] theorem run_nil (step : σ → ε → σ) (s : σ) : run step s [] = s := rfl

@[simp] theorem run_cons (step : σ → ε → σ) (s : σ) (event : ε) (events : List ε) :
    run step s (event :: events) = run step (step s event) events := rfl

theorem run_append (step : σ → ε → σ) (s : σ) (first second : List ε) :
    run step s (first ++ second) = run step (run step s first) second :=
  foldl_append

/-- Every event meets the condition in the state in which it is executed. -/
def Along (step : σ → ε → σ) (ok : σ → ε → Prop) : σ → List ε → Prop
  | _, [] => True
  | s, event :: events => ok s event ∧ Along step ok (step s event) events

instance decidableAlong (step : σ → ε → σ) (ok : σ → ε → Prop)
    [∀ s event, Decidable (ok s event)] :
    (s : σ) → (events : List ε) → Decidable (Along step ok s events)
  | _, [] => isTrue trivial
  | s, event :: events =>
      have := decidableAlong step ok (step s event) events
      inferInstanceAs (Decidable (ok s event ∧ Along step ok (step s event) events))

variable {step : σ → ε → σ} {s : σ} {ok : σ → ε → Prop} {events : List ε}

theorem along_append {first second : List ε} : Along step ok s (first ++ second) ↔
      Along step ok s first ∧ Along step ok (run step s first) second := by
  induction first generalizing s with
  | nil => simp [Along]
  | cons event first ih => simp [Along, ih, and_assoc]

theorem Along.and {p q : σ → ε → Prop}
    (first : Along step p s events) (second : Along step q s events) :
    Along step (fun s event => p s event ∧ q s event) s events := by
  induction events generalizing s with
  | nil => trivial
  | cons event events ih => exact ⟨⟨first.1, second.1⟩, ih first.2 second.2⟩

/-- An invariant of the steps that meet the condition holds after every run whose
steps all meet it. -/
theorem invariant_run {P : σ → Prop}
    (preserved : ∀ s event, P s → ok s event → P (step s event)) (initially : P s)
    (along : Along step ok s events) :
    P (run step s events) := by
  induction events generalizing s with
  | nil => exact initially
  | cons event events ih => exact ih (preserved s event initially along.1) along.2

/-- An invariant of every step holds after every run. -/
theorem invariant_run_of_step {P : σ → Prop}
    (preserved : ∀ s event, P s → P (step s event)) (initially : P s) (events : List ε) :
    P (run step s events) := by
  induction events generalizing s with
  | nil => exact initially
  | cons event events ih => exact ih (preserved s event initially)

/-- A run of one system is the image of a run of another one, when every step that
meets the condition is. -/
theorem run_map_of_simulation {ε' : Type*} {step' : τ → ε' → τ} {f : σ → τ} {g : ε → ε'}
    (simulates : ∀ s event, ok s event → step' (f s) (g event) = f (step s event))
    (along : Along step ok s events) :
    run step' (f s) (events.map g) = f (run step s events) := by
  induction events generalizing s with
  | nil => rfl
  | cons event events ih => rw [map_cons, run_cons, simulates s event along.1, ih along.2, run_cons]

/-!
A family of systems: every event has a key and changes the component of that key.
-/

section Family

variable {κ : Type*} [DecidableEq κ] {step : σ → ε → σ} {key : ε → κ}

/-- A component runs through the events of its own key. -/
theorem run_component (t : κ → σ) (events : List ε) (k : κ) :
    run (fun t event => Function.update t (key event) (step (t (key event)) event)) t events k =
      run step (t k) (events.filter (fun event => key event = k)) := by
  induction events generalizing t with
  | nil => rfl
  | cons event events ih =>
    rw [run_cons, ih]
    rcases eq_or_ne (key event) k with eq | other
    · simp [eq]
    · simp [other, Function.update_of_ne other.symm]

/-- When the events are listed key by key, those of a key are the ones listed for
it. -/
theorem filter_flatMap_key {events : κ → List ε} {keys : List κ} {k : κ}
    (keyed : ∀ k, ∀ event ∈ events k, key event = k) (nodup : keys.Nodup)
    (listed : events k ≠ [] → k ∈ keys) :
    (keys.flatMap events).filter (fun event => key event = k) = events k := by
  have own : (events k).filter (fun event => key event = k) = events k :=
    filter_eq_self.mpr fun event mem => by simp [keyed k event mem]
  have others : ∀ j, j ≠ k → (events j).filter (fun event => key event = k) = [] :=
    fun j other => filter_eq_nil_iff.mpr fun event mem => by
      simpa [keyed j event mem] using other
  by_cases mem : k ∈ keys
  · obtain ⟨prev, after, rfl⟩ := append_of_mem mem
    have apart : k ∉ prev ∧ k ∉ after := by
      have := nodup_middle.mp nodup
      simpa using (nodup_cons.mp this).1
    have quiet : ∀ part : List κ, k ∉ part →
        (part.flatMap events).filter (fun event => key event = k) = [] := by
      intro part absent
      rw [filter_flatMap, flatMap_eq_nil_iff]
      exact fun j inPart => others j fun eq => absent (eq ▸ inPart)
    rw [flatMap_append, flatMap_cons, filter_append, filter_append,
      quiet prev apart.1, quiet after apart.2, own]
    simp
  · have nothing : events k = [] := by
      by_contra some
      exact mem (listed some)
    rw [nothing, filter_flatMap, flatMap_eq_nil_iff]
    exact fun j inKeys => others j fun eq => mem (eq ▸ inKeys)

end Family

end StepSystem
