import Mathlib.Data.List.Forall2

/-!
# Two runs side by side

A deterministic system takes calls one after another, and some of them give an output. `outputs` is
what a list of calls gives from a state, and `Along` a condition on each call and the state it is
made in. `outputs_eq_of_related` is the unwinding rule: when related states and matching calls give
equal outputs and related states again, two matching runs give the same outputs.
-/

set_option autoImplicit false
set_option relaxedAutoImplicit false

namespace Colix.Foundation

variable {State Call Output : Type*} (perform : State → Call → State)
  (output : State → Call → Option Output)

/-- The outputs of calls made one after another. -/
def outputs : State → List Call → List Output
  | _, [] => []
  | state, call :: rest => (output state call).toList ++ outputs (perform state call) rest

/-- Every call meets the condition in the state it is made in. -/
def Along (condition : State → Call → Prop) : State → List Call → Prop
  | _, [] => True
  | state, call :: rest => condition state call ∧ Along condition (perform state call) rest

variable {perform output}

/-- The unwinding rule. -/
theorem outputs_eq_of_related {condition : State → Call → Prop} {related : State → State → Prop}
    {matching : Call → Call → Prop}
    (hstep : ∀ state state' call call', related state state' → matching call call' →
      condition state call → output state call = output state' call' ∧
        related (perform state call) (perform state' call'))
    {calls calls' : List Call} (hcalls : List.Forall₂ matching calls calls') {state state' : State}
    (hrelated : related state state') (halong : Along perform condition state calls) :
    outputs perform output state calls = outputs perform output state' calls' := by
  induction hcalls generalizing state state' with
  | nil => rfl
  | cons hcall _ ih =>
    obtain ⟨hcondition, hrest⟩ := halong
    obtain ⟨houtput, hnext⟩ := hstep _ _ _ _ hrelated hcall hcondition
    rw [outputs, outputs, houtput, ih hnext hrest]

end Colix.Foundation
