import Ixml.Error

/-!
# Work that takes notes

Compiling a grammar and building a result note what they do and what they pass over. Work on a state may
also fail; the state and the notes are then those at the point of failure.
-/

namespace Ixml

/-- How much a note matters. -/
inductive Level
  /-- Something in the grammar was passed over. -/
  | warning
  /-- A step was taken. -/
  | detail
deriving DecidableEq, Repr

structure Note where
  level : Level
  text : String
deriving DecidableEq, Repr

/-- A state and the notes taken so far, the oldest first. -/
structure Noted (σ : Type) where
  state : σ
  notes : List Note := []
deriving Repr

/-- Work on a state of type `σ`. -/
abbrev Work (σ : Type) := EStateM Error (Noted σ)

namespace Work
variable {σ τ α : Type}

def note (level : Level) (text : String) : Work σ Unit :=
  modify fun s => { s with notes := s.notes ++ [⟨level, text⟩] }

/-- Note that something was passed over. -/
def warn (text : String) : Work σ Unit :=
  note .warning text

def detail (text : String) : Work σ Unit :=
  note .detail text

def current : Work σ σ :=
  (·.state) <$> get

def update (f : σ → σ) : Work σ Unit :=
  modify fun s => { s with state := f s.state }

/-- Do work on a part of the state. The notes are shared. -/
def onPart (part : σ → τ) (put : τ → σ → σ) (w : Work τ α) : Work σ α := fun s =>
  match w ⟨part s.state, s.notes⟩ with
  | .ok a t => .ok a ⟨put t.state s.state, t.notes⟩
  | .error e t => .error e ⟨put t.state s.state, t.notes⟩

/-- Do the work: the verdict, and the state and notes that are left. -/
def perform (w : Work σ α) (s : σ) : Except Error α × Noted σ :=
  match w ⟨s, []⟩ with
  | .ok a t => (.ok a, t)
  | .error e t => (.error e, t)

end Work

end Ixml
