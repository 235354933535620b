import DesignMetrics.Fault

/-!
# Recorded computations

A computation that says what it does: the events it reports, in order, and its outcome. What was
reported before a fault stays reported.
-/

namespace DesignMetrics

/-- What the library reports while it works. -/
inductive LogEvent where
  | droppedReferences (count : Nat)
  | droppedNamespaceEdges (count : Nat)
  | cyclesFound (count largest : Nat)
  | stageDone (stage : PooledStage)
  | poolUsed (types : Nat) (workers : Int)
  | merged (models modules types : Nat)
  | computed (types methods : Int) (cycles : Nat)
deriving DecidableEq, Repr

inductive LogLevel where
  | debug
  | info
deriving DecidableEq, Repr

namespace LogEvent

/-- A finished run is information, all else is for debugging. -/
def level : LogEvent → LogLevel
  | computed _ _ _ => .info
  | _ => .debug

def text : LogEvent → String
  | droppedReferences count =>
    "Type graph: ignored " ++ toString count ++ " external or self references"
  | droppedNamespaceEdges count =>
    "Namespace graph: ignored " ++ toString count ++ " self or unknown namespace edges"
  | cyclesFound count largest =>
    "Found " ++ toString count ++ " dependency cycles (largest has " ++ toString largest
      ++ " nodes)"
  | stageDone stage => "Stage " ++ stage.name ++ " done"
  | poolUsed types workers =>
    "Computing metrics for " ++ toString types ++ " types with " ++ toString workers ++ " workers"
  | merged models modules types =>
    "Merged " ++ toString models ++ " code models into " ++ toString modules ++ " modules ("
      ++ toString types ++ " types)"
  | computed types methods cycles =>
    "Computed metrics for " ++ toString types ++ " types, " ++ toString methods ++ " methods, "
      ++ toString cycles ++ " cycles"

end LogEvent

structure Recorded (α : Type) where
  log : List LogEvent
  outcome : Except Fault α

namespace Recorded

variable {α β γ : Type}

protected def pure (a : α) : Recorded α := ⟨[], .ok a⟩

/-- Run the second computation on the value of the first, unless the first failed. -/
protected def bind (x : Recorded α) (f : α → Recorded β) : Recorded β :=
  match x.outcome with
  | .ok a => ⟨x.log ++ (f a).log, (f a).outcome⟩
  | .error fault => ⟨x.log, .error fault⟩

instance : Monad Recorded where
  pure := Recorded.pure
  bind := Recorded.bind

/-- Report one event. -/
def report (event : LogEvent) : Recorded Unit := ⟨[event], .ok ()⟩

/-- An outcome that was reached in silence. -/
def ofExcept (outcome : Except Fault α) : Recorded α := ⟨[], outcome⟩

instance : MonadLift (Except Fault) Recorded := ⟨ofExcept⟩

@[simp] theorem log_pure (a : α) : (pure a : Recorded α).log = [] := rfl

@[simp] theorem outcome_pure (a : α) : (pure a : Recorded α).outcome = .ok a := rfl

theorem outcome_bind (x : Recorded α) (f : α → Recorded β) :
    (x >>= f).outcome = x.outcome.bind fun a => (f a).outcome := by
  show (Recorded.bind x f).outcome = _
  unfold Recorded.bind
  cases x.outcome <;> rfl

theorem outcome_map (f : α → β) (x : Recorded α) : (f <$> x).outcome = x.outcome.map f := by
  show (Recorded.bind x fun a => Recorded.pure (f a)).outcome = _
  unfold Recorded.bind
  cases x.outcome <;> rfl

theorem log_bind_of_ok {x : Recorded α} {a : α} (h : x.outcome = .ok a) (f : α → Recorded β) :
    (x >>= f).log = x.log ++ (f a).log := by
  show (Recorded.bind x f).log = _
  unfold Recorded.bind
  rw [h]

theorem log_bind_of_error {x : Recorded α} {fault : Fault} (h : x.outcome = .error fault)
    (f : α → Recorded β) : (x >>= f).log = x.log := by
  show (Recorded.bind x f).log = _
  unfold Recorded.bind
  rw [h]

instance : LawfulMonad Recorded := LawfulMonad.mk' Recorded
  (by
    rintro α ⟨log, outcome⟩
    show Recorded.bind _ _ = _
    cases outcome <;> simp [Recorded.bind, Recorded.pure, Function.comp])
  (by
    intro α β a f
    show Recorded.bind (Recorded.pure a) f = f a
    simp [Recorded.bind, Recorded.pure])
  (by
    rintro α β γ ⟨log, outcome⟩ f g
    show Recorded.bind (Recorded.bind _ f) g = Recorded.bind _ fun a => Recorded.bind (f a) g
    cases outcome with
    | error fault => rfl
    | ok a => cases h : (f a).outcome <;> simp [Recorded.bind, h])

end Recorded

end DesignMetrics
