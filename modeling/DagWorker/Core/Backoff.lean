import DagWorker.Core.Config
import Mathlib.Tactic.Ring

/-!
# The backoff window

`backoff` draws a delay below a window that doubles with every attempt up to a cap.  The
loop leaves with the cap once the window has reached half of it, rounded down.  So no
doubling leaves the range of `int64`, and an odd cap is reached one nanosecond early.
-/

namespace DagWorker

variable {cap w : Int} {n : ℕ}
variable (attempt : ℕ)

/-- What the loop of `backoff` computes before it wraps to 64 bits. -/
def doublings (cap : Int) : ℕ → Int → List Int
  | 0, _ => []
  | n + 1, w => if cap / 2 ≤ w then [] else w * 2 :: doublings cap n (int64 (w * 2))

theorem orDefault_pos {x fallback : Int} (h : 0 < fallback) : 0 < orDefault x fallback := by
  unfold orDefault
  split <;> omega

theorem orDefault_lt {x fallback b : Int} (h : fallback < b) (hx : x < b) :
    orDefault x fallback < b := by
  unfold orDefault
  split <;> assumption

theorem int64_of_lt {x : Int} (h : -2 ^ 63 ≤ x) (h' : x < 2 ^ 63) : int64 x = x := by
  apply Int.bmod_eq_of_le <;> omega

/-- Wrapping drops a multiple of `2 ^ 64`. -/
theorem exists_int64 (x : Int) :
    -2 ^ 63 ≤ int64 x ∧ int64 x < 2 ^ 63 ∧ ∃ k : Int, x = int64 x + k * 2 ^ 64 := by
  have hlo : -2 ^ 63 ≤ int64 x := Int.le_bmod (by decide)
  have hhi : int64 x < 2 ^ 63 := Int.bmod_lt (by decide)
  have hdvd : ((2 ^ 64 : ℕ) : Int) ∣ x - int64 x := Int.dvd_self_sub_bmod
  obtain ⟨k, hk⟩ := hdvd
  exact ⟨hlo, hhi, k, by push_cast at hk; omega⟩

/-! ## The loop -/

/-- A doubling stays below the cap. -/
theorem int64_double (hcap : cap < 2 ^ 63) (hw : 0 < w) (hsmall : ¬cap / 2 ≤ w) :
    int64 (w * 2) = w * 2 := by
  apply int64_of_lt <;> omega

theorem doublings_lt (hcap : cap < 2 ^ 63) (hw : 0 < w) :
    ∀ x ∈ doublings cap n w, 0 < x ∧ x < cap := by
  induction n generalizing w with
  | zero => simp [doublings]
  | succ n ih =>
    intro x hx
    rw [doublings] at hx
    split_ifs at hx with hbig
    · cases hx
    rcases List.mem_cons.mp hx with rfl | hx
    · omega
    · rw [int64_double hcap hw hbig] at hx
      exact ih (by omega) x hx

/-- The window never falls from one attempt to the next. -/
theorem backoffWindow_le_succ (hcap : cap < 2 ^ 63) (hw : 0 < w) :
    min (backoffWindow cap n w) cap ≤ min (backoffWindow cap (n + 1) w) cap := by
  induction n generalizing w with
  | zero =>
    simp only [backoffWindow]
    split_ifs with hbig
    · exact (min_le_right w cap).trans (min_self cap).ge
    · rw [int64_double hcap hw hbig]
      omega
  | succ n ih =>
    rw [backoffWindow, backoffWindow]
    split_ifs with hbig
    · exact le_rfl
    · rw [int64_double hcap hw hbig]
      exact ih (by omega)

/-- The loop against the closed form over unbounded integers. -/
theorem backoffWindow_closed (hcap : cap < 2 ^ 63) (hw : 0 < w) :
    min cap (w * 2 ^ n) ≤ min (backoffWindow cap n w) cap ∧
      min (backoffWindow cap n w) cap ≤ min cap (w * 2 ^ n) + cap % 2 := by
  induction n generalizing w with
  | zero =>
    simp only [backoffWindow]
    omega
  | succ n ih =>
    have hpow : w * 2 ^ (n + 1) = w * 2 * 2 ^ n := by ring
    rw [backoffWindow]
    split_ifs with hbig
    · -- twice the window already reaches the cap, but for an odd nanosecond
      have hgrow : w * 2 ≤ w * 2 ^ (n + 1) := by
        rw [hpow]
        exact le_mul_of_one_le_right (by omega) (one_le_pow₀ (by norm_num))
      omega
    · rw [int64_double hcap hw hbig, hpow]
      exact ih (by omega)

/-! ## The window -/

theorem window_eq (base maxDelay : Int) : window attempt base maxDelay =
    min (backoffWindow (orDefault maxDelay Default.retryMaxDelay) (attempt - 1)
      (orDefault base Default.retryBaseDelay)) (orDefault maxDelay Default.retryMaxDelay) := by
  cases attempt <;> rfl

theorem window_le_window {attempt later : ℕ} {base maxDelay : Int}
    (hmax : orDefault maxDelay Default.retryMaxDelay < 2 ^ 63) (hle : attempt ≤ later) :
    window attempt base maxDelay ≤ window later base maxDelay := by
  have hbase : 0 < orDefault base Default.retryBaseDelay := orDefault_pos (by decide)
  have hmono : Monotone fun n => min (backoffWindow (orDefault maxDelay Default.retryMaxDelay) n
      (orDefault base Default.retryBaseDelay)) (orDefault maxDelay Default.retryMaxDelay) :=
    monotone_nat_of_le_succ fun n => backoffWindow_le_succ hmax hbase
  rw [window_eq, window_eq]
  exact hmono (Nat.sub_le_sub_right hle 1)

/-- The window is positive and at most the cap, and near the closed form. -/
theorem window_bounds (base : Int) {maxDelay : Int} (hmax : maxDelay < 2 ^ 63) :
    let cap := orDefault maxDelay Default.retryMaxDelay
    let closed := min cap (orDefault base Default.retryBaseDelay * 2 ^ (attempt - 1))
    cap < 2 ^ 63 ∧ 0 < window attempt base maxDelay ∧ window attempt base maxDelay ≤ cap ∧
      closed ≤ window attempt base maxDelay ∧ window attempt base maxDelay ≤ closed + cap % 2 := by
  intro cap closed
  have hbase : 0 < orDefault base Default.retryBaseDelay := orDefault_pos (by decide)
  have hpos : 0 < cap := orDefault_pos (by decide)
  have hlt : cap < 2 ^ 63 := orDefault_lt (by decide) hmax
  have hone : 0 < closed := lt_min hpos (mul_pos hbase (pow_pos (by decide) _))
  have hclosed : closed ≤ window attempt base maxDelay ∧
      window attempt base maxDelay ≤ closed + cap % 2 := by
    rw [window_eq]
    exact backoffWindow_closed hlt hbase
  have hcap : window attempt base maxDelay ≤ cap := by
    rw [window_eq]
    exact min_le_right _ _
  exact ⟨hlt, hone.trans_le hclosed.1, hcap, hclosed⟩

theorem backoff_eq {base maxDelay : Int} (hpos : 0 < window attempt base maxDelay) :
    backoff attempt base maxDelay = Prog.getJitter (window attempt base maxDelay) :=
  if_neg hpos.not_ge

/-- For every attempt and all `int64` delays: nothing overflows on the way to the window, it
is positive, at most the cap and monotone in the attempt, it is the closed form if the cap is
even and at most one more if it is odd, and `backoff` is one draw below it. -/
theorem backoff_window_exact (attempt : ℕ) (base : Int) {maxDelay : Int}
    (hmax : maxDelay < 2 ^ 63) :
    let base' := orDefault base Default.retryBaseDelay
    let cap := orDefault maxDelay Default.retryMaxDelay
    let closed := min cap (base' * 2 ^ (attempt - 1))
    (∀ x ∈ doublings cap (attempt - 1) base', -2 ^ 63 ≤ x ∧ x < 2 ^ 63) ∧
    (0 < window attempt base maxDelay ∧ window attempt base maxDelay ≤ cap) ∧
    (∀ later, attempt ≤ later → window attempt base maxDelay ≤ window later base maxDelay) ∧
    (2 ∣ cap → window attempt base maxDelay = closed) ∧
    (closed ≤ window attempt base maxDelay ∧ window attempt base maxDelay ≤ closed + 1) ∧
    backoff attempt base maxDelay = Prog.getJitter (window attempt base maxDelay) ∧
    ∀ jitter : Int → Int, (∀ m, 0 < m → 0 ≤ jitter m ∧ jitter m < m) →
      ∃ delay, (backoff attempt base maxDelay).run [] [jitter (window attempt base maxDelay)] =
        some delay ∧ 0 ≤ delay ∧ delay < window attempt base maxDelay := by
  intro base' cap closed
  have hbase : 0 < base' := orDefault_pos (by decide)
  obtain ⟨hlt, hwindow, hcap, hclosed⟩ :
      cap < 2 ^ 63 ∧ 0 < window attempt base maxDelay ∧ window attempt base maxDelay ≤ cap ∧
        closed ≤ window attempt base maxDelay ∧ window attempt base maxDelay ≤ closed + cap % 2 :=
    window_bounds attempt base hmax
  have hdraw := backoff_eq attempt hwindow
  refine ⟨fun x hx => ?_, ⟨hwindow, hcap⟩, fun later => ?_, fun heven => ?_, ?_, hdraw,
    fun jit hj => ?_⟩
  · have hx := doublings_lt hlt hbase x hx
    omega
  · exact window_le_window hlt
  · omega
  · omega
  · rw [hdraw]
    exact ⟨_, rfl, hj _ hwindow⟩

/-- An odd cap is reached one nanosecond early. -/
theorem window_odd_cap : window 2 1 3 = 3 ∧ min 3 (1 * 2 ^ (2 - 1)) = (2 : Int) ∧
    window 2 1 3 ≤ min 3 (1 * 2 ^ (2 - 1)) + 1 :=
  ⟨by decide, by decide, (backoff_window_exact 2 1 (by decide)).2.2.2.2.1.2⟩

end DagWorker
