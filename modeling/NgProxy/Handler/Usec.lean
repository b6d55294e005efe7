/-
`ngx.usec`, the clock the latency is measured with. Its formula adds the milliseconds of the current second
to the microseconds it already counts, so a second is 999 units too long, and the clock goes back where the
next one begins.
-/
import NgProxy.Handler.Latency
import NgProxy.Lib.Memory

namespace NgProxy.Handler

open Lua Codec Memory Prog

/-- `struct timeval` as `gettimeofday` fills it; `10^6 * tv_sec` is a 64-bit number. -/
structure Timeval where
  sec : Int
  usec : Int
  usec_range : 0 ≤ usec ∧ usec < 1000000
  sec_range : -2 ^ 63 ≤ 1000000 * sec ∧ 1000000 * sec < 2 ^ 63

namespace Timeval

/-- The time in microseconds. -/
def micros (tv : Timeval) : Int := 1000000 * tv.sec + tv.usec

/-- The millisecond of the current second. -/
def msec (tv : Timeval) : Int := tv.usec / 1000

/-- `us` in `ngx_stream_lua_ngx_usec`. -/
def us (tv : Timeval) : Int :=
  int64 (int64 (int64 (int64 (1000 * tv.sec) * 1000) + Int.tdiv tv.usec 1000) + tv.usec)

/-- What the formula adds up to, if nothing wraps around. -/
def sum (tv : Timeval) : Int := tv.micros + tv.msec

/-- The value `ngx.usec` returns. -/
def usecNumber (tv : Timeval) : Number := toDouble tv.us

theorem msec_range (tv : Timeval) : 0 ≤ tv.msec ∧ tv.msec < 1000 := by
  have := tv.usec_range
  unfold msec
  omega

/-- The last sum may wrap around, and nothing before it. -/
theorem us_eq (tv : Timeval) : tv.us = if tv.sum < 2 ^ 63 then tv.sum else tv.sum - 2 ^ 64 := by
  obtain ⟨hu, hu'⟩ := tv.usec_range
  obtain ⟨hs, hs'⟩ := tv.sec_range
  have hdiv : Int.tdiv tv.usec 1000 = tv.usec / 1000 := Int.tdiv_eq_ediv_of_nonneg hu
  rw [us, hdiv, int64_eq (x := 1000 * tv.sec) (by omega) (by omega), sum, micros, msec]
  rw [int64_eq (x := 1000 * tv.sec * 1000) (by omega) (by omega)]
  unfold int64
  split <;> omega

end Timeval

/-- `latency`: the time of a request, from the start in `ngx.ctx.now`. -/
def requestTime (now : Number) (start : Option Number) : Number := now.sub (start.getD (.int 0))

/-- It is what a request adds to the latency counter. -/
theorem countQuery_adds {W : Type} (host : Host W) (s : Session W) :
    (countQuery host s).2.world =
      host.metricIncr .latency (requestTime (host.usec (host.metricIncr .queryCount (.int 1) s.world)).1 s.now)
        (host.usec (host.metricIncr .queryCount (.int 1) s.world)).2 := rfl

section Difference

variable {t₁ t₂ : Timeval}

theorem us_sub (t₁ t₂ : Timeval) : t₂.us - t₁.us = t₂.micros - t₁.micros ↔
    t₁.msec = t₂.msec ∧ (t₁.sum < 2 ^ 63 ↔ t₂.sum < 2 ^ 63) := by
  have hm₁ := t₁.msec_range
  have hm₂ := t₂.msec_range
  have hs₁ : t₁.sum = t₁.micros + t₁.msec := rfl
  have hs₂ : t₂.sum = t₂.micros + t₂.msec := rfl
  rw [t₁.us_eq, t₂.us_eq]
  -- milliseconds differ by less than 1000, so they never make up for a wrap-around
  by_cases h₁ : t₁.sum < 2 ^ 63
  · rw [if_pos h₁]
    split <;> omega
  · rw [if_neg h₁]
    split <;> omega

/-- Up to `2^53` the number is exact. -/
theorem usecNumber_eq {tv : Timeval} (h₀ : 0 ≤ tv.us) (h : tv.us ≤ 2 ^ 53) :
    tv.usecNumber = .int tv.us ∧ tv.us = tv.sum := by
  refine ⟨toDouble_small _ (by omega), ?_⟩
  have hm := tv.msec_range
  have hu := tv.usec_range
  have hs := tv.sec_range
  have heq := tv.us_eq
  split at heq
  · exact heq
  · rw [Timeval.sum, Timeval.micros] at heq
    omega

theorem requestTime_eq (h₁ : 0 ≤ t₁.us ∧ t₁.us ≤ 2 ^ 53) (h₂ : 0 ≤ t₂.us ∧ t₂.us ≤ 2 ^ 53) :
    requestTime t₂.usecNumber (some t₁.usecNumber) = .int (t₂.micros - t₁.micros + (t₂.msec - t₁.msec)) := by
  obtain ⟨hn₁, hs₁⟩ := usecNumber_eq h₁.1 h₁.2
  obtain ⟨hn₂, hs₂⟩ := usecNumber_eq h₂.1 h₂.2
  rw [requestTime, Option.getD_some, hn₁, hn₂, sub_int (by omega), hs₁, hs₂, Timeval.sum, Timeval.sum]
  congr 1
  omega

end Difference

/-- Of two times the values of `ngx.usec` differ by the microseconds between them exactly if both are in
the same millisecond of their seconds, and the sum wraps around for both or for none. As Lua numbers, up to
`2^53`, the time of a request is then what it should be; and it is negative exactly if fewer microseconds
have passed than the millisecond has gone back. -/
theorem usec_difference (t₁ t₂ : Timeval) (h : t₁.micros ≤ t₂.micros) :
    (t₂.us - t₁.us = t₂.micros - t₁.micros ∧ t₁.us ≤ t₂.us ↔
      t₁.msec = t₂.msec ∧ (t₁.sum < 2 ^ 63 ↔ t₂.sum < 2 ^ 63)) ∧
      (0 ≤ t₁.us ∧ t₁.us ≤ 2 ^ 53 → 0 ≤ t₂.us ∧ t₂.us ≤ 2 ^ 53 →
        (requestTime t₂.usecNumber (some t₁.usecNumber) = .int (t₂.micros - t₁.micros) ↔ t₁.msec = t₂.msec) ∧
        ((requestTime t₂.usecNumber (some t₁.usecNumber)).isNeg = true ↔
          t₂.micros - t₁.micros < t₁.msec - t₂.msec)) := by
  refine ⟨?_, fun h₁ h₂ => ?_⟩
  · rw [← us_sub]
    constructor
    · exact fun hd => hd.1
    · exact fun hd => ⟨hd, by omega⟩
  · rw [requestTime_eq h₁ h₂]
    constructor
    · rw [Number.int.injEq]
      omega
    · rw [Number.isNeg, decide_eq_true_eq]
      omega

def startTime : Timeval := ⟨1480000000, 250100, by decide, by decide⟩

theorem usec_difference_near :
    requestTime (Timeval.usecNumber ⟨1480000001, 250900, by decide, by decide⟩) (some startTime.usecNumber) =
      .int 1000800 :=
  ((usec_difference startTime ⟨1480000001, 250900, by decide, by decide⟩ (by decide)).2 (by decide) (by decide)).1.2
    (by decide)

/-- One microsecond before a second is full, and at the full second: the clock goes back by 998. -/
theorem usec_goes_back :
    Timeval.us ⟨1480000000, 999999, by decide, by decide⟩ = 1480000001000998 ∧
      Timeval.us ⟨1480000001, 0, by decide, by decide⟩ = 1480000001000000 ∧
      requestTime (Timeval.usecNumber ⟨1480000001, 0, by decide, by decide⟩)
        (some (Timeval.usecNumber ⟨1480000000, 999999, by decide, by decide⟩)) = .int (-998) := by
  decide +kernel

end NgProxy.Handler
