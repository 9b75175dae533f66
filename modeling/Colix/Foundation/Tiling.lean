import Mathlib.Data.List.Nodup
import Mathlib.Tactic.Common

/-!
# Tilings of an interval

`Tiles address extent bottom top blocks` says that the blocks, listed from the highest down, cover
the interval from `bottom` to `top` one after another, without gap or overlap. Distinct blocks are
then disjoint (`Tiles.disjoint`), and a block added on top extends the tiling.
-/

set_option autoImplicit false
set_option relaxedAutoImplicit false

namespace Colix.Foundation

variable {Block : Type*} {address extent other : Block → ℕ} {bottom top : ℕ} {blocks : List Block}
  {block first second : Block}

/-- The blocks, from the highest down, cover the interval exactly. -/
def Tiles (address extent : Block → ℕ) (bottom : ℕ) : ℕ → List Block → Prop
  | top, [] => top = bottom
  | top, block :: rest =>
    address block + extent block = top ∧ Tiles address extent bottom (address block) rest

/-- The bottom of a tiling is not above its top. -/
theorem Tiles.bottom_le (htiles : Tiles address extent bottom top blocks) : bottom ≤ top := by
  induction blocks generalizing top with
  | nil => exact Nat.le_of_eq (Eq.symm htiles)
  | cons block rest ih =>
    have hrest := ih htiles.2
    have htop := htiles.1
    omega

/-- A block lies within the interval. -/
theorem Tiles.bounds (htiles : Tiles address extent bottom top blocks) (hmem : block ∈ blocks) :
    bottom ≤ address block ∧ address block + extent block ≤ top := by
  induction blocks generalizing top with
  | nil => exact absurd hmem List.not_mem_nil
  | cons first rest ih =>
    have hbottom := htiles.2.bottom_le
    have htop := htiles.1
    rcases List.mem_cons.mp hmem with rfl | hrest
    · omega
    · have hbounds := ih htiles.2 hrest
      omega

/-- Two blocks at different places of the list do not overlap. -/
theorem Tiles.disjoint (htiles : Tiles address extent bottom top blocks) (hfirst : first ∈ blocks)
    (hsecond : second ∈ blocks) (hne : first ≠ second) :
    address first + extent first ≤ address second ∨
      address second + extent second ≤ address first := by
  induction blocks generalizing top with
  | nil => exact absurd hfirst List.not_mem_nil
  | cons head rest ih =>
    rcases List.mem_cons.mp hfirst with rfl | hlowFirst
    · rcases List.mem_cons.mp hsecond with rfl | hlowSecond
      · exact absurd rfl hne
      · exact Or.inr (htiles.2.bounds hlowSecond).2
    · rcases List.mem_cons.mp hsecond with rfl | hlowSecond
      · exact Or.inl (htiles.2.bounds hlowFirst).2
      · exact ih htiles.2 hlowFirst hlowSecond

/-- A tiling depends on the extents of its own blocks. -/
theorem Tiles.congr (htiles : Tiles address extent bottom top blocks)
    (hagree : ∀ block ∈ blocks, other block = extent block) :
    Tiles address other bottom top blocks := by
  induction blocks generalizing top with
  | nil => exact htiles
  | cons block rest ih =>
    refine ⟨?_, ih htiles.2 fun later hlater ↦ hagree later (List.mem_cons_of_mem _ hlater)⟩
    rw [hagree block List.mem_cons_self]
    exact htiles.1

/-- Blocks of at least a given extent are no more than fit in the interval. -/
theorem Tiles.length_mul_le (htiles : Tiles address extent bottom top blocks) (least : ℕ)
    (hleast : ∀ block, least ≤ extent block) : bottom + least * blocks.length ≤ top := by
  induction blocks generalizing top with
  | nil => exact Nat.le_of_eq (Eq.symm htiles)
  | cons block rest ih =>
    have hrest := ih htiles.2
    have htop := htiles.1
    have hextent := hleast block
    rw [List.length_cons, Nat.mul_succ]
    omega

end Colix.Foundation
