/-
Module: LeilFS.Lib.Command
Purpose: Commands that change a state, may answer with an error and may stop the
  program, with rules for proving that a command comes to an end.
Trusted boundary: none
-/
import Mathlib

/-!
A command reads and writes a state.  It returns a value or an error, each with
the state it leaves, or it does not return: an assertion fails, or a loop does
not end.
-/

/-- A command on the state `σ` with the value `α` or an error `ε`. -/
def Command (σ ε α : Type) : Type :=
  σ → Option (Except ε α × σ)

namespace Command

open Command

variable {σ ε α β : Type}

/-- Return a value. -/
protected def pure (a : α) : Command σ ε α :=
  fun s => some (.ok a, s)

/-- Go on with the value; an error ends the command. -/
protected def bind (x : Command σ ε α) (f : α → Command σ ε β) : Command σ ε β :=
  fun s =>
    match x s with
    | none => none
    | some (.error e, s') => some (.error e, s')
    | some (.ok a, s') => f a s'

instance : Monad (Command σ ε) where
  pure := Command.pure
  bind := Command.bind

/-- Return an error. -/
def fail (e : ε) : Command σ ε α :=
  fun s => some (.error e, s)

/-- The state. -/
def get : Command σ ε σ :=
  fun s => some (.ok s, s)

/-- Change the state. -/
def modify (f : σ → σ) : Command σ ε Unit :=
  fun s => some (.ok (), f s)

/-- Return the error unless the condition holds. -/
def check (holds : Bool) (e : ε) : Command σ ε Unit :=
  if holds then Command.pure () else fail e

/-- Return the error if there is one. -/
def report (e : Option ε) : Command σ ε Unit :=
  match e with
  | some e => fail e
  | none => Command.pure ()

/-- The value, or the error if there is none. -/
def expect (value : Option α) (e : ε) : Command σ ε α :=
  match value with
  | some a => Command.pure a
  | none => fail e

/-- A value that has to be there: without it the program stops. -/
def require (value : Option α) : Command σ ε α :=
  fun s => value.map fun a => (.ok a, s)

/-- Replace the state by a new one, if there is one. -/
def update (f : σ → Option σ) : Command σ ε Unit :=
  fun s => (f s).map fun s' => (.ok (), s')

/-! ## Commands that come to an end -/

/-- The command returns from the state `s`: a value with `Q`, or an error with `E`. -/
def Ends (x : Command σ ε α) (s : σ) (Q : α → σ → Prop) (E : ε → σ → Prop) : Prop :=
  ∃ s', (∃ a, x s = some (.ok a, s') ∧ Q a s') ∨ (∃ e, x s = some (.error e, s') ∧ E e s')

namespace Ends

variable {x : Command σ ε α} {f : α → Command σ ε β} {s : σ}
  {Q Q' : α → σ → Prop} {R : β → σ → Prop} {E E' : ε → σ → Prop}

theorem mono (h : Ends x s Q E) (value : ∀ a s', Q a s' → Q' a s')
    (error : ∀ e s', E e s' → E' e s') : Ends x s Q' E' := by
  obtain ⟨s', ⟨a, run, post⟩ | ⟨e, run, post⟩⟩ := h
  · exact ⟨s', .inl ⟨a, run, value a s' post⟩⟩
  · exact ⟨s', .inr ⟨e, run, error e s' post⟩⟩

theorem pure {a : α} (h : Q a s) : Ends (Pure.pure a : Command σ ε α) s Q E :=
  ⟨s, .inl ⟨a, rfl, h⟩⟩

/-- The first command ends, and the rest ends wherever the first one does. -/
theorem bind (first : Ends x s (fun a s' => Ends (f a) s' R E) E) : Ends (x >>= f) s R E := by
  have unfolded : (x >>= f) s = Command.bind x f s := rfl
  obtain ⟨s', ⟨a, run, s'', result⟩ | ⟨e, run, post⟩⟩ := first
  · refine ⟨s'', ?_⟩
    rw [unfolded, Command.bind, run]
    exact result
  · refine ⟨s', .inr ⟨e, ?_, post⟩⟩
    rw [unfolded, Command.bind, run]

theorem get {Q : σ → σ → Prop} (h : Q s s) : Ends (get : Command σ ε σ) s Q E :=
  ⟨s, .inl ⟨s, rfl, h⟩⟩

theorem modify {Q : Unit → σ → Prop} {g : σ → σ} (h : Q () (g s)) :
    Ends (modify g : Command σ ε Unit) s Q E :=
  ⟨g s, .inl ⟨(), rfl, h⟩⟩

theorem check {Q : Unit → σ → Prop} {holds : Bool} {e : ε}
    (yes : holds = true → Q () s) (no : holds = false → E e s) :
    Ends (check holds e : Command σ ε Unit) s Q E := by
  cases holds with
  | true => exact ⟨s, .inl ⟨(), rfl, yes rfl⟩⟩
  | false => exact ⟨s, .inr ⟨e, rfl, no rfl⟩⟩

theorem report {Q : Unit → σ → Prop} {e : Option ε} (none : e = none → Q () s)
    (some : ∀ e, E e s) : Ends (report e : Command σ ε Unit) s Q E := by
  cases e with
  | none => exact ⟨s, .inl ⟨(), rfl, none rfl⟩⟩
  | some e => exact ⟨s, .inr ⟨e, rfl, some e⟩⟩

theorem expect {value : Option α} {e : ε} (some : ∀ a, value = some a → Q a s)
    (none : value = none → E e s) : Ends (expect value e : Command σ ε α) s Q E := by
  cases value with
  | none => exact ⟨s, .inr ⟨e, rfl, none rfl⟩⟩
  | some a => exact ⟨s, .inl ⟨a, rfl, some a rfl⟩⟩

theorem require {value : Option α} {a : α} (eq : value = some a) (h : Q a s) :
    Ends (require value : Command σ ε α) s Q E := by
  subst eq
  exact ⟨s, .inl ⟨a, rfl, h⟩⟩

theorem update {Q : Unit → σ → Prop} {g : σ → Option σ} {s' : σ} (eq : g s = some s')
    (h : Q () s') : Ends (Command.update g : Command σ ε Unit) s Q E := by
  refine ⟨s', .inl ⟨(), ?_, h⟩⟩
  rw [Command.update, eq]
  rfl

/-! The steps of a command that goes on. -/

theorem bind_get {f : σ → Command σ ε β} (rest : Ends (f s) s R E) :
    Ends (Command.get >>= f) s R E :=
  bind (get rest)

theorem bind_check {f : Unit → Command σ ε β} {holds : Bool} {e : ε} (no : E e s)
    (rest : holds = true → Ends (f ()) s R E) : Ends (Command.check holds e >>= f) s R E :=
  bind (check rest fun _ => no)

theorem bind_report {f : Unit → Command σ ε β} {e : Option ε} (some : ∀ e, E e s)
    (rest : e = none → Ends (f ()) s R E) : Ends (Command.report e >>= f) s R E :=
  bind (report rest some)

theorem bind_expect {value : Option α} {e : ε} (none : E e s)
    (rest : ∀ a, value = some a → Ends (f a) s R E) : Ends (Command.expect value e >>= f) s R E :=
  bind (expect rest fun _ => none)

/-- The state that a command leaves. -/
theorem exists_state {P : σ → Prop} (h : Ends x s (fun _ => P) (fun _ => P)) :
    ∃ s', (x s).map Prod.snd = some s' ∧ P s' := by
  obtain ⟨s', ⟨a, run, post⟩ | ⟨e, run, post⟩⟩ := h
  · exact ⟨s', by rw [run]; rfl, post⟩
  · exact ⟨s', by rw [run]; rfl, post⟩

end Ends

end Command
