import Colix.Foundation.ByteMemory
import Colix.Foundation.CountedLoop

/-!
# Computations with their accesses

`Traced Access Value` is a computation together with the accesses it makes, in order. Its value is
`none` when it does not return, be it a fault or a loop that has not ended; the accesses up to there
are kept. `Within allowed` says that every access is an allowed one. `value_bind` and `within_bind`
are the rules of composition, and each loop has a rule for its value and one for its accesses.
-/

set_option autoImplicit false
set_option relaxedAutoImplicit false

namespace Colix.Foundation

/-- A computation with the accesses it makes. -/
structure Traced (Access Value : Type*) where
  value : Option Value
  accesses : List Access

namespace Traced

universe u v

variable {Access : Type u} {Value Result : Type v} {allowed : Access → Prop}
  {first : Traced Access Value} {next : Value → Traced Access Result}

instance : Monad (Traced Access) where
  pure value := ⟨some value, []⟩
  bind first next :=
    match first.value with
    | none => ⟨none, first.accesses⟩
    | some value => ⟨(next value).value, first.accesses ++ (next value).accesses⟩

/-- Accesses that give a value. -/
def access (places : List Access) (value : Value) : Traced Access Value :=
  ⟨some value, places⟩

/-- A computation without accesses. -/
def ofOption (value : Option Value) : Traced Access Value :=
  ⟨value, []⟩

/-- Every access is an allowed one. -/
def Within (allowed : Access → Prop) (computation : Traced Access Value) : Prop :=
  ∀ place ∈ computation.accesses, allowed place

/-! ### Composition -/

@[simp] theorem value_pure (value : Value) :
    (pure value : Traced Access Value).value = some value :=
  rfl

@[simp] theorem value_access (places : List Access) (value : Value) :
    (access places value).value = some value := rfl

@[simp] theorem value_ofOption (value : Option Value) :
    (ofOption value : Traced Access Value).value = value := rfl

@[simp] theorem within_pure (value : Value) :
    Within allowed (pure value : Traced Access Value) ↔ True :=
  iff_of_true (fun _ hmem ↦ absurd hmem List.not_mem_nil) trivial

@[simp] theorem within_access (places : List Access) (value : Value) :
    Within allowed (access places value) ↔ ∀ place ∈ places, allowed place :=
  Iff.rfl

@[simp] theorem within_ofOption (value : Option Value) :
    Within allowed (ofOption value : Traced Access Value) ↔ True :=
  iff_of_true (fun _ hmem ↦ absurd hmem List.not_mem_nil) trivial

@[simp] theorem value_bind :
    (first >>= next).value = first.value.bind fun value ↦ (next value).value := by
  change (match first.value with
    | none => (⟨none, first.accesses⟩ : Traced Access Result)
    | some value => ⟨(next value).value, first.accesses ++ (next value).accesses⟩).value = _
  cases first.value <;> rfl

/-- A composition stays within the allowed accesses when its parts do. -/
theorem within_bind : Within allowed (first >>= next) ↔
    Within allowed first ∧ ∀ value, first.value = some value → Within allowed (next value) := by
  change Within allowed (match first.value with
    | none => (⟨none, first.accesses⟩ : Traced Access Result)
    | some value => ⟨(next value).value, first.accesses ++ (next value).accesses⟩) ↔ _
  cases hvalue : first.value with
  | none => simp [Within]
  | some value => simp [Within, or_imp, forall_and]

/-- Accesses and then more accesses. -/
theorem access_bind_access {places : List Access} {value : Value} {rest : Value → List Access}
    {result : Value → Result} :
    ((access places value >>= fun value ↦ access (rest value) (result value)) :
      Traced Access Result) = access (places ++ rest value) (result value) := rfl

/-- Accesses allowed by a rule are allowed by a weaker one. -/
theorem Within.mono {weaker : Access → Prop} {computation : Traced Access Value}
    (hwithin : Within allowed computation) (hweaker : ∀ place, allowed place → weaker place) :
    Within weaker computation := fun place hplace ↦ hweaker place (hwithin place hplace)

/-! ### Completion -/

/-- The computation returns, and every access is an allowed one. -/
def Completes (allowed : Access → Prop) (computation : Traced Access Value) : Prop :=
  computation.value.isSome ∧ Within allowed computation

@[simp] theorem completes_pure (value : Value) :
    Completes allowed (pure value : Traced Access Value) ↔ True :=
  iff_of_true ⟨rfl, (within_pure value).mpr trivial⟩ trivial

/-- A composition completes when its first part does, and then the second from the value of the
first. -/
theorem completes_bind : Completes allowed (first >>= next) ↔
    Completes allowed first ∧ ∀ value, first.value = some value →
      Completes allowed (next value) := by
  rw [Completes, Completes, within_bind, value_bind]
  cases hvalue : first.value with
  | none => simp
  | some value => simp [Completes, and_left_comm]

/-- The computation returns a value that meets the condition, and every access is an allowed one. -/
def Yields (allowed : Access → Prop) (condition : Value → Prop)
    (computation : Traced Access Value) : Prop :=
  ∃ value, computation.value = some value ∧ condition value ∧ Within allowed computation

theorem yields_pure {condition : Value → Prop} {value : Value} (hcondition : condition value) :
    Yields allowed condition (pure value : Traced Access Value) :=
  ⟨value, rfl, hcondition, (within_pure value).mpr trivial⟩

theorem yields_access {condition : Value → Prop} {places : List Access} {value : Value}
    (hplaces : ∀ place ∈ places, allowed place) (hcondition : condition value) :
    Yields allowed condition (access places value) :=
  ⟨value, rfl, hcondition, hplaces⟩

/-- What the first part yields is what the second part starts from. -/
theorem Yields.bind {middle : Value → Prop} {condition : Result → Prop}
    (hfirst : Yields allowed middle first)
    (hnext : ∀ value, middle value → Yields allowed condition (next value)) :
    Yields allowed condition (first >>= next) := by
  obtain ⟨value, hvalue, hmiddle, hwithin⟩ := hfirst
  obtain ⟨result, hresult, hcondition, hrest⟩ := hnext value hmiddle
  refine ⟨result, by rw [value_bind, hvalue, Option.bind_some, hresult], hcondition,
    within_bind.mpr ⟨hwithin, fun other hother ↦ ?_⟩⟩
  rw [hvalue, Option.some.injEq] at hother
  exact hother ▸ hrest

theorem Yields.completes {condition : Value → Prop} {computation : Traced Access Value}
    (hyields : Yields allowed condition computation) : Completes allowed computation := by
  obtain ⟨value, hvalue, -, hwithin⟩ := hyields
  exact ⟨by rw [hvalue]; rfl, hwithin⟩

/-- What completes goes on from what its first part yields. -/
theorem Completes.of_yields {condition : Value → Prop}
    (hcompletes : Completes allowed (first >>= next)) (hfirst : Yields allowed condition first) :
    ∃ value, condition value ∧ Completes allowed (next value) := by
  obtain ⟨value, hvalue, hcondition, -⟩ := hfirst
  exact ⟨value, hcondition, (completes_bind.mp hcompletes).2 value hvalue⟩

/-- What completes goes on from some value of its first part. -/
theorem Completes.later (hcompletes : Completes allowed (first >>= next)) :
    ∃ value, Completes allowed (next value) := by
  obtain ⟨⟨hfirst, -⟩, hnext⟩ := completes_bind.mp hcompletes
  obtain ⟨value, hvalue⟩ := Option.isSome_iff_exists.mp hfirst
  exact ⟨value, hnext value hvalue⟩

/-! ### Loops -/

section Loops

variable {State Exit : Type v} {body : ℕ → State → Traced Access State}
  {leaving : ℕ → State → Traced Access (Exit ⊕ State)} {count : ℕ} {start : State}

/-- The first `count` iterations of a loop. -/
def countedLoop (body : ℕ → State → Traced Access State) : ℕ → State → Traced Access State
  | 0, start => pure start
  | count + 1, start => countedLoop body count start >>= body count

theorem value_countedLoop (count : ℕ) (start : State) : (countedLoop body count start).value =
    Foundation.countedLoop (fun i state ↦ (body i state).value) count start := by
  induction count with
  | zero => rfl
  | succ count ih => rw [countedLoop, value_bind, ih, Foundation.countedLoop]

/-- A loop stays within the allowed accesses when every iteration that it comes to does. -/
theorem within_countedLoop : Within allowed (countedLoop body count start) ↔
    ∀ i < count, ∀ state, (countedLoop body i start).value = some state →
      Within allowed (body i state) := by
  induction count with
  | zero =>
    exact iff_of_true ((within_pure start).mpr trivial) fun i hi ↦ absurd hi (Nat.not_lt_zero i)
  | succ count ih =>
    rw [countedLoop, within_bind, ih]
    constructor
    · rintro ⟨hbefore, hlast⟩ i hi
      rcases Nat.lt_succ_iff_lt_or_eq.mp hi with hlt | rfl
      · exact hbefore i hlt
      · exact hlast
    · exact fun hall ↦ ⟨fun i hi ↦ hall i (by omega), hall count (by omega)⟩

/-- A loop that its body may leave. -/
def leavingLoop (body : ℕ → State → Traced Access (Exit ⊕ State)) :
    ℕ → State → Traced Access (Exit ⊕ State)
  | 0, start => pure (Sum.inr start)
  | count + 1, start => leavingLoop body count start >>= fun outcome ↦
    match outcome with
    | Sum.inl exit => pure (Sum.inl exit)
    | Sum.inr state => body count state

theorem value_leavingLoop (count : ℕ) (start : State) : (leavingLoop leaving count start).value =
    Foundation.leavingLoop (fun i state ↦ (leaving i state).value) count start := by
  induction count with
  | zero => rfl
  | succ count ih =>
    rw [leavingLoop, value_bind, ih, Foundation.leavingLoop]
    rcases Foundation.leavingLoop (fun i state ↦ (leaving i state).value) count start with
      _ | exit | state <;> rfl

/-- A loop that may be left stays within the allowed accesses when every iteration that it comes to
does. -/
theorem within_leavingLoop : Within allowed (leavingLoop leaving count start) ↔
    ∀ i < count, ∀ state, (leavingLoop leaving i start).value = some (Sum.inr state) →
      Within allowed (leaving i state) := by
  induction count with
  | zero => exact iff_of_true ((within_pure _).mpr trivial) fun i hi ↦ absurd hi (Nat.not_lt_zero i)
  | succ count ih =>
    rw [leavingLoop, within_bind, ih]
    constructor
    · rintro ⟨hbefore, hlast⟩ i hi
      rcases Nat.lt_succ_iff_lt_or_eq.mp hi with hlt | rfl
      · exact hbefore i hlt
      · exact fun state hstate ↦ hlast (Sum.inr state) hstate
    · refine fun hall ↦ ⟨fun i hi ↦ hall i (by omega), ?_⟩
      rintro (exit | state) hvalue
      · exact (within_pure _).mpr trivial
      · exact hall count (by omega) state hvalue

end Loops

/-! ### Reads of words -/

/-- The addresses from `bottom` up to `top`. -/
def Between (bottom top : ℕ) (place : ℕ) : Prop :=
  bottom ≤ place ∧ place < top

/-- A word read from memory, byte by byte. -/
def readWord (w : ℕ) (memory : Memory) (address : ℕ) : Traced ℕ (BitVec w) :=
  access ((List.range (w / 8)).map fun i ↦ address + i) (load w memory address)

@[simp] theorem value_readWord (w : ℕ) (memory : Memory) (address : ℕ) :
    (readWord w memory address).value = some (load w memory address) := rfl

/-- A word lies between two addresses when its bytes do. -/
theorem within_readWord {w bottom top : ℕ} (hbytes : 0 < w / 8) (memory : Memory) (address : ℕ) :
    Within (Between bottom top) (readWord w memory address) ↔
      bottom ≤ address ∧ address + w / 8 ≤ top := by
  rw [readWord, within_access]
  simp only [List.mem_map, List.mem_range, Between]
  constructor
  · intro hwithin
    have hlow := hwithin (address + 0) ⟨0, hbytes, rfl⟩
    have hhigh := hwithin (address + (w / 8 - 1)) ⟨w / 8 - 1, by omega, rfl⟩
    omega
  · rintro ⟨hlow, hhigh⟩ place ⟨i, hi, rfl⟩
    omega

/-- What follows a read that lies between two addresses. -/
theorem completes_readWord_bind {w bottom top : ℕ} (hbytes : 0 < w / 8) (memory : Memory)
    (address : ℕ) {Result : Type} {next : BitVec w → Traced ℕ Result} :
    Completes (Between bottom top) (readWord w memory address >>= next) ↔
      (bottom ≤ address ∧ address + w / 8 ≤ top) ∧
        Completes (Between bottom top) (next (load w memory address)) := by
  rw [completes_bind, Completes, within_readWord hbytes]
  simp

end Traced

end Colix.Foundation
