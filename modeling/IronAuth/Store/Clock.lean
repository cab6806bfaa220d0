import Mathlib

/-!
# Clock arithmetic

Instants are `i64` microseconds of the application's clock. A window is a `Duration` that is cut to
an `i64`, and what has passed since an instant is a saturating difference.
-/

namespace IronAuth.Store

/-- `i64::MAX`. -/
def i64Max : ℤ := 2 ^ 63 - 1

/-- `saturating_sub` of `i64`. -/
def saturatingSub (a b : ℤ) : ℤ := max (-2 ^ 63) (min i64Max (a - b))

/-- `saturating_add` of `i64`. -/
def saturatingAdd (a b : ℤ) : ℤ := max (-2 ^ 63) (min i64Max (a + b))

/-- `checked_add` of `i64`. -/
def checkedAdd (a b : ℤ) : Option ℤ := if -2 ^ 63 ≤ a + b ∧ a + b ≤ i64Max then some (a + b) else none

/-- What an `i64` can hold. -/
def IsI64 (a : ℤ) : Prop := -2 ^ 63 ≤ a ∧ a ≤ i64Max

instance (a : ℤ) : Decidable (IsI64 a) := inferInstanceAs (Decidable (-2 ^ 63 ≤ a ∧ a ≤ i64Max))

/-- `i64::try_from(window.as_micros()).unwrap_or(i64::MAX)`. -/
def windowMicros (window : ℕ) : ℤ := min i64Max window

end IronAuth.Store
