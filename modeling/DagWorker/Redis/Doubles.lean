import DagWorker.Core.Backoff
import DagWorker.Redis.Prelude
import DagWorker.Support.Double

/-!
# Numbers of the scripts

The scores of ready nodes and the backoff window are integers elsewhere; here they are
computed in doubles, as the scripts compute them, and compared with those integers, with
the order of claims and with `Backoff` in Go.
-/

namespace DagWorker.Redis

open Double

variable {cap w : Int} {n : ℕ}

namespace Lua

/-- `packScore`; the reply of `INCR` becomes a double first. -/
def packScore (priority : Int) (fifo : ℕ) : ℚ :=
  let rank := rnd (65535 - rnd (priority + 32768))
  rnd (rnd (rank * 4294967296) + rnd fifo)

/-- The loop of `backoffWindow`. -/
def backoffLoop (maxDelay : ℚ) : ℕ → ℚ → ℚ
  | 0, window => window
  | n + 1, window =>
    if rnd (maxDelay / 2) ≤ window then maxDelay else backoffLoop maxDelay n (rnd (window * 2))

def backoffWindow (attempt : ℕ) (base maxDelay : ℚ) : ℚ :=
  let attempt := if attempt = 0 then 1 else attempt
  let base := if base ≤ 0 then (defaultRetryBaseMs : ℚ) else base
  let maxDelay := if maxDelay ≤ 0 then (defaultRetryMaxMs : ℚ) else maxDelay
  let window := backoffLoop maxDelay (attempt - 1) base
  if maxDelay < window then maxDelay else window

end Lua

/-! ## Scores -/

/-- While the stamps stay below `2 ^ 52` no operation rounds. -/
theorem packScore_exact {priority : Int} {fifo : ℕ} (hp : -2 ^ 15 ≤ priority ∧ priority < 2 ^ 15)
    (hf : fifo < 2 ^ 52) : Lua.packScore priority fifo = (packScore priority fifo : ℚ) := by
  have hbias : rnd ((priority : ℚ) + 32768) = (priority + 32768 : ℤ) := by
    exact_mod_cast rnd_intCast (m := priority + 32768) (abs_lt.mpr (by omega))
  have hrank : rnd (65535 - ((priority + 32768 : ℤ) : ℚ)) = (65535 - (priority + 32768) : ℤ) := by
    exact_mod_cast rnd_intCast (m := 65535 - (priority + 32768)) (abs_lt.mpr (by omega))
  have hscaled : rnd (((65535 - (priority + 32768) : ℤ) : ℚ) * 4294967296) =
      ((65535 - (priority + 32768)) * 4294967296 : ℤ) := by
    exact_mod_cast rnd_intCast (m := (65535 - (priority + 32768)) * 4294967296)
      (abs_lt.mpr (by omega))
  have hfifo : rnd (fifo : ℚ) = ((fifo : ℤ) : ℚ) := by
    exact_mod_cast rnd_intCast (m := fifo) (abs_lt.mpr (by omega))
  rw [Lua.packScore, hbias, hrank, hscaled, hfifo, packScore]
  exact_mod_cast rnd_intCast (m := (65535 - (priority + 32768)) * 4294967296 + fifo)
    (abs_lt.mpr (by omega))

/-- The scores of all stamps up to `last` are in the order of claims exactly as long as there
are at most `2 ^ 32` stamps. -/
theorem packScore_order_iff (last : ℕ) :
    (∀ p q : Int, -2 ^ 15 ≤ p ∧ p < 2 ^ 15 → -2 ^ 15 ≤ q ∧ q < 2 ^ 15 →
      ∀ f g : ℕ, 0 < f ∧ f ≤ last → 0 < g ∧ g ≤ last →
        (Lua.packScore p f < Lua.packScore q g ↔ q < p ∨ p = q ∧ f < g)) ↔ last ≤ 2 ^ 32 := by
  constructor
  · intro h
    by_contra hlast
    have hfirst := (h 1 0 (by omega) (by omega) (2 ^ 32 + 1) 1 (by omega) (by omega)).mpr
      (.inl one_pos)
    rw [packScore_exact (by omega) (by norm_num),
      packScore_exact (by omega) (by norm_num)] at hfirst
    norm_num [packScore] at hfirst
  · intro hlast p q hp hq f g hf hg
    rw [packScore_exact hp (by omega), packScore_exact hq (by omega), Int.cast_lt, packScore,
      packScore]
    omega

/-- After `2 ^ 32` stamps a node is claimed before one of a higher priority. -/
theorem packScore_carries : Lua.packScore 0 1 < Lua.packScore 1 (2 ^ 32 + 2) := by
  rw [packScore_exact (by omega) (by norm_num), packScore_exact (by omega) (by norm_num)]
  norm_num [packScore]

/-! ## Backoff -/

/-- The loop in doubles is the loop in integers. -/
theorem backoffLoop_exact (hcap : 0 < cap ∧ cap < 2 ^ 52) (hw : 0 < w) :
    Lua.backoffLoop cap n w = (backoffLoop cap n w : ℚ) := by
  induction n generalizing w with
  | zero => rfl
  | succ n ih =>
    have hhalf : rnd ((cap : ℚ) / 2) = cap / 2 := by
      simpa [div_eq_mul_inv] using rnd_dyadic (m := cap) (abs_lt.mpr (by omega)) (-1)
    have hiff : (cap : ℚ) / 2 ≤ w ↔ cap ≤ 2 * w := by
      rw [div_le_iff₀ two_pos, mul_comm]
      exact_mod_cast Iff.rfl
    rw [Lua.backoffLoop, backoffLoop, hhalf]
    simp only [hiff]
    split_ifs with hbig
    · rfl
    · rw [← ih (by omega)]
      congr 1
      exact_mod_cast rnd_intCast (m := w * 2) (abs_lt.mpr (by omega))

/-- The loop in milliseconds is the loop in nanoseconds: the cap is even there. -/
theorem backoffLoop_millisecond (hcap : cap * 10 ^ 6 < 2 ^ 63) (hw : 0 < w) :
    backoffLoop cap n w * 10 ^ 6 = DagWorker.backoffWindow (cap * 10 ^ 6) n (w * 10 ^ 6) := by
  induction n generalizing w with
  | zero => rfl
  | succ n ih =>
    rw [backoffLoop, DagWorker.backoffWindow]
    split_ifs with hms hns hns
    · rfl
    · omega
    · omega
    · rw [int64_double hcap (by omega) hns, ih (by omega)]
      congr 1
      ring

theorem orDefault_millisecond (x fallback : Int) :
    DagWorker.orDefault (x * 10 ^ 6) (fallback * 10 ^ 6) =
      (if x ≤ 0 then fallback else x) * 10 ^ 6 := by
  unfold DagWorker.orDefault
  split_ifs <;> omega

theorem pred_one_of_zero (attempt : ℕ) :
    (if attempt = 0 then 1 else attempt) - 1 = attempt - 1 := by
  split_ifs <;> omega

/-- A default in doubles is the default in integers. -/
theorem default_exact (x fallback : Int) : (if (x : ℚ) ≤ 0 then (fallback : ℚ) else x) =
    ((if x ≤ 0 then fallback else x : Int) : ℚ) := by
  simp only [Int.cast_nonpos]
  split_ifs <;> rfl

section

variable (attempt : ℕ) (base : Int) {maxDelay : Int}

/-- The window that `failAttempt` uses is the one the script computes in doubles. -/
theorem backoffWindow_exact (hmax : maxDelay < 2 ^ 52) :
    Lua.backoffWindow attempt base maxDelay = (backoffWindow attempt base maxDelay : ℚ) := by
  have hbase : 0 < if base ≤ 0 then defaultRetryBaseMs else base := by
    split_ifs
    · decide
    · omega
  have hcap : 0 < (if maxDelay ≤ 0 then defaultRetryMaxMs else maxDelay) ∧
      (if maxDelay ≤ 0 then defaultRetryMaxMs else maxDelay) < 2 ^ 52 := by
    split_ifs
    · decide
    · omega
  rw [Lua.backoffWindow, backoffWindow]
  simp only [default_exact, backoffLoop_exact hcap hbase, min_def, Int.cast_lt]
  split_ifs <;> first | rfl | omega

theorem backoffWindow_millisecond (hmax : maxDelay * 10 ^ 6 < 2 ^ 63) :
    backoffWindow attempt base maxDelay * 10 ^ 6 =
      window attempt (base * 10 ^ 6) (maxDelay * 10 ^ 6) := by
  have hbase : 0 < if base ≤ 0 then defaultRetryBaseMs else base := by
    split_ifs
    · decide
    · omega
  have hcap : (if maxDelay ≤ 0 then defaultRetryMaxMs else maxDelay) * 10 ^ 6 < 2 ^ 63 := by
    split_ifs
    · decide
    · exact hmax
  rw [window_eq, show Default.retryMaxDelay = defaultRetryMaxMs * 10 ^ 6 from rfl,
    show Default.retryBaseDelay = defaultRetryBaseMs * 10 ^ 6 from rfl, orDefault_millisecond,
    orDefault_millisecond, ← backoffLoop_millisecond hcap hbase, backoffWindow]
  simp only [pred_one_of_zero]
  omega

end

/-- The bound that `Backoff` draws below is, in milliseconds, the window the script computes
in doubles and the one it draws below. -/
theorem backoffWindow_eq_window (attempt : ℕ) (base : Int) {maxDelay : Int}
    (hmax : maxDelay < 2 ^ 52 ∧ maxDelay * 10 ^ 6 < 2 ^ 63) :
    ∃ bound, backoff attempt (base * 10 ^ 6) (maxDelay * 10 ^ 6) = Prog.getJitter bound ∧
      Lua.backoffWindow attempt base maxDelay * 10 ^ 6 = (bound : ℚ) ∧
      backoffWindow attempt base maxDelay * 10 ^ 6 = bound ∧
      jitterMs (backoffWindow attempt base maxDelay) =
        Prog.getJitter (backoffWindow attempt base maxDelay) := by
  have hns := backoffWindow_millisecond attempt base hmax.2
  obtain ⟨-, hpos, -⟩ := window_bounds attempt (base * 10 ^ 6) hmax.2
  refine ⟨_, backoff_eq attempt hpos, ?_, hns, if_neg (by omega)⟩
  rw [backoffWindow_exact attempt base hmax.1, ← hns]
  push_cast
  rfl

/-- The third attempt with the default delays. -/
theorem third_window : backoff 3 0 0 = Prog.getJitter (4 * second) ∧
    Lua.backoffWindow 3 (0 : Int) (0 : Int) * 10 ^ 6 = 4 * second := by
  obtain ⟨bound, hdraw, hlua, hms, -⟩ := @backoffWindow_eq_window 3 0 0 (by decide)
  have hbound : bound = 4 * second := by
    rw [← hms]
    decide
  rw [hbound] at hdraw hlua
  exact ⟨hdraw, by exact_mod_cast hlua⟩

end DagWorker.Redis
