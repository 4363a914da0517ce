/-
# Instances of numerals and ordered fields

Instances Mathlib finds by a chain, in one step.
-/

import Mathlib

namespace Carmel

universe u

instance (priority := 3000) neZero_two : NeZero 2 := ⟨two_ne_zero⟩

instance (priority := 3000) neZero_three : NeZero 3 := ⟨three_ne_zero⟩

instance (priority := 2000) neZero_succ (m : ℕ) : NeZero (m + 1) := ⟨m.succ_ne_zero⟩

instance atLeastTwo_two : Nat.AtLeastTwo 2 := ⟨le_rfl⟩

instance atLeastTwo_three : Nat.AtLeastTwo 3 := ⟨by decide⟩

instance atLeastTwo_ten : Nat.AtLeastTwo 10 := ⟨by decide⟩

instance atLeastTwo_twenty : Nat.AtLeastTwo 20 := ⟨by decide⟩

instance maxEqOr_of_linearOrder {F : Type u} [LinearOrder F] : Std.MaxEqOr F := inferInstance

section Field

variable {F : Type u} [Field F] [LinearOrder F] [IsStrictOrderedRing F]

instance addLeftMono_of_field : AddLeftMono F := inferInstance

instance posMulMono_of_field : PosMulMono F := inferInstance

instance zeroLEOneClass_of_field : ZeroLEOneClass F := inferInstance

instance nontrivial_nonneg : Nontrivial {r : F // 0 ≤ r} := inferInstance

instance noZeroDivisors_nonneg : NoZeroDivisors {r : F // 0 ≤ r} := inferInstance

instance canonicallyOrderedAdd_nonneg : CanonicallyOrderedAdd {r : F // 0 ≤ r} := inferInstance

end Field

end Carmel
