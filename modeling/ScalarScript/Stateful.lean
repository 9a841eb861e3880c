import ScalarScript.Fault

/-! Computations on a state that may fail. A failure does not undo what happened to the state. -/
namespace ScalarScript

abbrev Stateful (σ : Type) := EStateM Fault σ

namespace Stateful

/-- A computation that leaves the state alone. -/
def lift {σ α : Type} (r : Except Fault α) : Stateful σ α := fun s =>
  match r with
  | .ok a => .ok a s
  | .error fault => .error fault s

@[simp] theorem lift_ok {σ α : Type} (a : α) (s : σ) :
    (lift (.ok a) : Stateful σ α) s = .ok a s := rfl

@[simp] theorem lift_error {σ α : Type} (fault : Fault) (s : σ) :
    (lift (.error fault) : Stateful σ α) s = .error fault s := rfl

/-- The state that a successful computation leaves. -/
def after {σ α : Type} (action : Stateful σ α) (start : σ) : Except Fault σ :=
  match action.run start with
  | .ok _ s => .ok s
  | .error fault _ => .error fault

end Stateful
end ScalarScript
