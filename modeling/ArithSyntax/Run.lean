/-!
# Runs

Readers take a state and give back a result together with the state after it, or an error together
with the state in which it was found. Nothing is undone by an error. `outcome` and `final` are the
two sides of such a run.
-/

set_option autoImplicit false

namespace ArithSyntax

/-- A result or an error, and the state after it. -/
abbrev Run := EStateM.Result

variable {ε σ α : Type}

/-- What a run yields. -/
def outcome : Run ε σ α → Except ε α
  | .ok a _ => .ok a
  | .error e _ => .error e

/-- The state that a run leaves. -/
def final : Run ε σ α → σ
  | .ok _ s => s
  | .error _ s => s

end ArithSyntax
