import Mathlib.Algebra.Order.Field.Power
import Mathlib.Algebra.Order.Ring.Rat
import Mathlib.Tactic.NormNum
import Mathlib.Tactic.Ring
import TreeRepair.Constant

namespace TreeRepair

namespace Decimal

def value (d : Decimal) : ℚ := (if d.negative then -1 else 1) * (d.digits * 10 ^ d.exponent)

/-- Written with a last digit that is not zero. -/
def Reduced (d : Decimal) : Prop := ¬ 10 ∣ d.digits

/-- Trailing zeros go to the exponent, all of them if the budget is as large as the number. -/
theorem stripZeros_spec {allowed digits : Nat} (exponent : Int) (enough : digits ≤ allowed)
    (positive : 0 < digits) :
    ¬ 10 ∣ (stripZeros allowed digits exponent).1 ∧
      ((stripZeros allowed digits exponent).1 : ℚ) * 10 ^ (stripZeros allowed digits exponent).2 =
        digits * 10 ^ exponent := by
  induction allowed generalizing digits exponent with
  | zero => omega
  | succ allowed ih =>
    rw [stripZeros]
    split
    next zero =>
      have less : digits / 10 ≤ allowed := by omega
      obtain ⟨reduced, same⟩ := ih (exponent + 1) less (by omega)
      refine ⟨reduced, ?_⟩
      have split : (digits : ℚ) = (digits / 10 : Nat) * 10 := by
        exact_mod_cast (Nat.div_mul_cancel (Nat.dvd_of_mod_eq_zero zero)).symm
      rw [same, split, zpow_add_one₀ (by norm_num)]
      ring
    next last => exact ⟨fun h => last (Nat.mod_eq_zero_of_dvd h), rfl⟩

theorem value_normalize (d : Decimal) : d.normalize.value = d.value := by
  unfold normalize
  split
  next zero => simp [value, zero]
  next nonzero =>
    have same := (stripZeros_spec d.exponent (Nat.le_refl _) (Nat.pos_of_ne_zero nonzero)).2
    simp only [value, same]

theorem reduced_normalize {d : Decimal} (h : d.normalize.exponent < 0) : d.normalize.Reduced := by
  by_cases zero : d.digits = 0
  · simp [normalize, zero] at h
  · rw [normalize, if_neg zero]
    exact (stripZeros_spec d.exponent (Nat.le_refl _) (Nat.pos_of_ne_zero zero)).1

/-- Without trailing zeros no larger exponent is possible. -/
theorem digits_unique {m n : Nat} {e f : Int} (reduced : ¬ 10 ∣ m) (le : e ≤ f)
    (same : (m : ℚ) * 10 ^ e = n * 10 ^ f) : m = n ∧ e = f := by
  obtain ⟨k, rfl⟩ := Int.le.dest le
  have cancelled : (m : ℚ) = n * 10 ^ k := by
    rw [zpow_add₀ (by norm_num), zpow_natCast, mul_comm (10 ^ e : ℚ), ← mul_assoc] at same
    exact mul_right_cancel₀ (zpow_ne_zero e (by norm_num)) same
  have whole : m = n * 10 ^ k := by exact_mod_cast cancelled
  cases k with
  | zero => simpa using whole
  | succ k =>
    refine absurd ?_ reduced
    rw [whole, Nat.pow_succ, ← Nat.mul_assoc]
    exact Nat.dvd_mul_left _ _

theorem abs_value (d : Decimal) : |d.value| = d.digits * 10 ^ d.exponent := by
  have sign : |(if d.negative then -1 else 1 : ℚ)| = 1 := by split <;> simp
  have positive : (0 : ℚ) < 10 ^ d.exponent := zpow_pos (by norm_num) _
  rw [value, abs_mul, sign, one_mul, abs_of_nonneg]
  exact mul_nonneg (Nat.cast_nonneg _) positive.le

theorem eq_of_value_eq {d e : Decimal} (hd : d.Reduced) (he : e.Reduced)
    (h : d.value = e.value) : d = e := by
  have sizes : (d.digits : ℚ) * 10 ^ d.exponent = e.digits * 10 ^ e.exponent := by
    rw [← abs_value, ← abs_value, h]
  have equal : d.digits = e.digits ∧ d.exponent = e.exponent := by
    rcases le_total d.exponent e.exponent with le | le
    · exact digits_unique hd le sizes
    · have := digits_unique he le sizes.symm
      exact ⟨this.1.symm, this.2.symm⟩
  have nonzero : (e.digits : ℚ) * 10 ^ e.exponent ≠ 0 := by
    have digits : e.digits ≠ 0 := fun zero => he (zero ▸ Nat.dvd_zero 10)
    exact mul_ne_zero (Nat.cast_ne_zero.mpr digits) (zpow_ne_zero _ (by norm_num))
  obtain ⟨negative, digits, exponent⟩ := d
  obtain ⟨negative', digits', exponent'⟩ := e
  obtain ⟨rfl, rfl⟩ := equal
  have signs : (if negative then -1 else 1 : ℚ) = if negative' then -1 else 1 :=
    mul_right_cancel₀ nonzero h
  have : (1 : ℚ) ≠ -1 ∧ (-1 : ℚ) ≠ 1 := by norm_num
  cases negative <;> cases negative' <;> simp_all

theorem value_of_toInt? {d : Decimal} {n : Int} (h : d.toInt? = some n) : d.value = n := by
  rw [← value_normalize]
  simp only [toInt?] at h
  split at h
  next whole =>
    obtain ⟨k, exponent⟩ := Int.eq_ofNat_of_zero_le whole
    simp only [exponent, Int.toNat_natCast, Option.some.injEq] at h
    simp only [value, exponent, zpow_natCast, ← h]
    split <;> simp [Nat.pow_eq]
  next => cases h

theorem normalize_of_toInt? {d : Decimal} (h : d.toInt? = none) : d.normalize.exponent < 0 := by
  simp only [toInt?] at h
  split at h
  next => cases h
  next fraction => exact not_le.mp fraction

/-- A decimal with places behind the point that cannot be left out is no integer. -/
theorem value_ne_intCast {d : Decimal} (reduced : d.Reduced) (places : d.exponent < 0) (n : Int) :
    d.value ≠ n := by
  intro same
  have size : (d.digits : ℚ) * 10 ^ d.exponent = n.natAbs * 10 ^ (0 : Int) := by
    rw [← abs_value, same, Nat.cast_natAbs, zpow_zero, mul_one, Int.cast_abs]
  have := (digits_unique reduced places.le size).2
  omega

end Decimal

/-- What a constant stands for, however it is written. -/
inductive Constant.Value where
  | null
  | unit
  | string (text : String)
  | number (size : ℚ)
  | infinite (negative : Bool)
  | nan

def Number.value : Number → Constant.Value
  | .finite d => .number d.value
  | .infinite negative => .infinite negative
  | .nan => .nan

namespace Constant

/-- The value of a constant, if a number stands for itself. -/
def plainValue : Constant → Value
  | .null => .null
  | .bool b => .number (if b then 1 else 0)
  | .int n => .number n
  | .number x => x.value
  | .string s => .string s
  | .unit => .unit

/-- The value of a constant: truth values are the numbers zero and one, and a number with a point
is the nearest binary one. -/
def value : Constant → Value
  | .number (.finite d) => d.exact.value
  | c => c.plainValue

/-- The form that one constant of each value has: no truth value, and no integer in the form of
another number. -/
def Settled : Constant → Prop
  | .bool _ => False
  | .number (.finite d) => d.Reduced ∧ d.exponent < 0
  | _ => True

theorem settled_ofNumber (x : Number) : (ofNumber x).Settled := by
  cases x with
  | finite d =>
    rw [ofNumber]
    split
    next => trivial
    next fraction =>
      have places := Decimal.normalize_of_toInt? fraction
      exact ⟨Decimal.reduced_normalize places, places⟩
  | _ => trivial

theorem plainValue_ofNumber (x : Number) : (ofNumber x).plainValue = x.value := by
  cases x with
  | finite d =>
    rw [ofNumber]
    split
    next n whole => rw [plainValue, Number.value, Decimal.value_of_toInt? whole]
    next => rw [plainValue, Number.value, Number.value, Decimal.value_normalize]
  | _ => rfl

theorem settled_canonical (c : Constant) : c.canonical.Settled := by
  unfold canonical
  split
  next => trivial
  next d => exact settled_ofNumber d.exact
  next notBool notFinite =>
    cases c with
    | bool b => exact notBool b rfl
    | number x =>
      cases x with
      | finite d => exact absurd rfl (notFinite d)
      | _ => trivial
    | _ => trivial

theorem plainValue_canonical (c : Constant) : c.canonical.plainValue = c.value := by
  unfold canonical
  split
  next b => cases b <;> simp [plainValue, value]
  next d => exact plainValue_ofNumber d.exact
  next notBool notFinite =>
    unfold value
    split
    next d => exact absurd rfl (notFinite d)
    next => rfl

theorem eq_of_plainValue {a b : Constant} (ha : a.Settled) (hb : b.Settled)
    (h : a.plainValue = b.plainValue) : a = b := by
  have fraction {d : Decimal} (settled : (number (.finite d)).Settled) (n : Int) : d.value ≠ n :=
    Decimal.value_ne_intCast settled.1 settled.2 n
  rcases a with _ | _ | n | (d | _ | _) | _ | _ <;> rcases b with _ | _ | m | (e | _ | _) | _ | _ <;>
    simp only [plainValue, Number.value, Value.number.injEq, Value.string.injEq,
      Value.infinite.injEq, Int.cast_inj, reduceCtorEq] at h
  case int.number.finite => exact absurd h.symm (fraction hb n)
  case number.finite.int => exact absurd h (fraction ha m)
  case number.finite.number.finite => rw [Decimal.eq_of_value_eq ha.1 hb.1 h]
  -- a truth value is not settled, and all other constants are their own values
  all_goals simp_all [Settled]

/-- Constants have one representative exactly if they have the same value. -/
theorem canonical_eq_iff {a b : Constant} : a.canonical = b.canonical ↔ a.value = b.value := by
  rw [← plainValue_canonical, ← plainValue_canonical]
  exact ⟨congrArg _, eq_of_plainValue a.settled_canonical b.settled_canonical⟩

-- the binary number that is nearest to this power of ten is a little smaller
example : (Constant.int 100000000000000000000000).same
    (.number (.finite { digits := 1, exponent := 23 })) = false := by decide +kernel

end Constant

end TreeRepair
