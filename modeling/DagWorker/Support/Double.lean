import Mathlib.Data.Int.Log
import Mathlib.Data.Rat.Floor
import Mathlib.Tactic.Linarith

/-!
# Double precision

The result of an operation on doubles is the double nearest to the exact result.  Doubles
are rational numbers here; `rnd` keeps 53 significant bits and leaves the exponent free.
-/

namespace DagWorker.Double

/-- The nearest integer, and the even one of two that are equally near. -/
def roundEven (q : ℚ) : ℤ :=
  let n := ⌊q⌋
  if q - n < 1 / 2 ∨ q - n = 1 / 2 ∧ 2 ∣ n then n else n + 1

def rnd (q : ℚ) : ℚ :=
  let ulp : ℚ := 2 ^ (Int.log 2 |q| - 52)
  if q = 0 then 0 else roundEven (q / ulp) * ulp

@[simp] theorem roundEven_intCast (n : ℤ) : roundEven n = n := by
  simp [roundEven]

/-- A number of at most 53 bits is a double. -/
theorem rnd_dyadic {m : ℤ} (hm : |m| < 2 ^ 53) (k : ℤ) : rnd (m * 2 ^ k) = m * 2 ^ k := by
  unfold rnd
  dsimp only
  split_ifs with hzero
  · exact hzero.symm
  set e := Int.log 2 |(m : ℚ) * 2 ^ k| - 52
  have hle : e ≤ k := by
    have hlt : |(m : ℚ) * 2 ^ k| < (2 : ℕ) ^ (k + 53) := by
      rw [abs_mul, abs_of_pos (zpow_pos (by norm_num : (0 : ℚ) < 2) k), Nat.cast_ofNat,
        zpow_add₀ (by norm_num), mul_comm]
      exact mul_lt_mul_of_pos_left (by exact_mod_cast hm) (zpow_pos (by norm_num) k)
    have hlog := (Int.lt_zpow_iff_log_lt (by norm_num) (abs_pos.mpr hzero)).mp hlt
    omega
  -- the last place is not above the last bit
  have hquot : (m : ℚ) * 2 ^ k / 2 ^ e = (m * 2 ^ (k - e).toNat : ℤ) := by
    rw [mul_div_assoc, ← zpow_sub₀ (by norm_num)]
    push_cast
    rw [← zpow_natCast, Int.toNat_of_nonneg (by omega)]
  rw [hquot, roundEven_intCast, ← hquot, div_mul_cancel₀]
  exact (zpow_pos (by norm_num) e).ne'

theorem rnd_intCast {m : ℤ} (hm : |m| < 2 ^ 53) : rnd m = m := by
  simpa using rnd_dyadic hm 0

end DagWorker.Double
