import FleetControl.Proofs.Command.Log
import FleetControl.Proofs.Session.Outcome

/-!
# Histories — what a run saves and acknowledges

A `Receipt` says that an instance has acknowledged a command.  The history of a run collects them
(`Fleet.history`): those of a message that is processed on a session identified as the instance, for
commands that the log holds and that are for it.  `Fleet.savedIn` collects what is saved.
-/

namespace FleetControl

/-- An instance has acknowledged a command. -/
structure Receipt where
  instanceId : Bytes
  id : Bytes
  deriving DecidableEq

/-- Whether a command is acknowledged by an instance. -/
def acknowledgedIn (receipts : List Receipt) (i : Bytes) (c : Command) : Bool :=
  receipts.contains ⟨i, c.id⟩

namespace Fleet

variable {f : Fleet}

/-- Whether the log holds a command with this id that is for an instance. -/
def holdsFor (f : Fleet) (i id : Bytes) : Bool :=
  match f.store.log.find id with
  | .ok c => c.target == i
  | .error _ => false

/-- What an event acknowledges. -/
def receipts (f : Fleet) (e : Event) : List Receipt :=
  match f.processedFor e, e.said? with
  | some i, some (_, m, _) => (m.acknowledged.filter (f.holdsFor i)).map (⟨i, ·⟩)
  | _, _ => []

theorem Serves.receipts {e : Event} {conn : Bytes} {m : AgentMessage} {now : Instant}
    {s s' : Session} {registry : Registry} (h : f.Serves e conn m now s s' registry) :
    f.receipts e =
      (m.acknowledged.filter (f.holdsFor m.instanceId)).map (⟨m.instanceId, ·⟩) := by
  simp only [Fleet.receipts, h.processedFor, h.said]

/-- What is saved by an event. -/
def saves (f : Fleet) : Event → List Command
  | .save r now => (f.store.save now none r).1.toOption.toList
  | _ => []

/-- What is saved along a run, in order. -/
def savedIn (f : Fleet) : List Event → List Command
  | [] => []
  | e :: es => f.saves e ++ (f.step e).savedIn es

/-- What is acknowledged along a run. -/
def history (f : Fleet) : List Event → List Receipt
  | [] => []
  | e :: es => f.receipts e ++ (f.step e).history es

/-- A save is timely if the clock is not before the epoch and there is a time left to stamp the
command with. -/
def IsTimely (f : Fleet) : Event → Prop
  | .save _ now => 0 ≤ now ∧ f.store.log.CanStamp now
  | _ => True

/-- Every save of a run is timely. -/
def Timely (f : Fleet) : List Event → Prop
  | [] => True
  | e :: es => f.IsTimely e ∧ (f.step e).Timely es

theorem history_append (f : Fleet) (es es' : List Event) :
    f.history (es ++ es') = f.history es ++ (f.run es).history es' := by
  induction es generalizing f with
  | nil => rfl
  | cons e es ih => rw [List.cons_append, history, ih, history, run_cons, List.append_assoc]

theorem savedIn_append (f : Fleet) (es es' : List Event) :
    f.savedIn (es ++ es') = f.savedIn es ++ (f.run es).savedIn es' := by
  induction es generalizing f with
  | nil => rfl
  | cons e es ih => rw [List.cons_append, savedIn, ih, savedIn, run_cons, List.append_assoc]

theorem timely_append (f : Fleet) (es es' : List Event) :
    f.Timely (es ++ es') ↔ f.Timely es ∧ (f.run es).Timely es' := by
  induction es generalizing f with
  | nil => simp [Timely]
  | cons e es ih => rw [List.cons_append, Timely, ih, Timely, run_cons, and_assoc]

end Fleet

end FleetControl
