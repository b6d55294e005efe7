/-
Integers on their way to the client. The proxy holds them as doubles and writes them with `%.14g`, so
that a backend's integer reply and a counter that `PROXY` reports arrive with their own digits exactly
when these are at most fourteen; a longer number is rounded and written with an exponent.
-/
import NgProxy.Handler.OneReply

namespace NgProxy.Handler

open Lua Codec Cluster Process Text

variable {W : Type}

/-- A subcommand of `PROXY` that reports a counter answers with the counter's text. -/
theorem proxyKey_counter (host : Host W) {sub : Bytes} {c : Counter} (hsub : proxyCounter (upper sub) = some c)
    (rest : List Value) (s : Worker W) {n : Number} (hn : (host.metricGet c s.cluster.world).1 = n) :
    ∃ s', proxyKey host (.str sub :: rest) s = (.ok (some (.tab [.str (bytes ":"), .str n.text, .str crlf])), s') := by
  subst hn
  show ∃ s', proxyHandler host (upper sub) s = _
  unfold proxyHandler
  rw [hsub]
  exact ⟨_, rfl⟩

/-- A backend's integer and a counter that `PROXY` reports are sent with their own digits exactly when they
have at most fourteen of them. -/
theorem integers_exact_iff (host : Host W) (s : Worker W) (n : Int) (hn : -2 ^ 63 ≤ n ∧ n < 2 ^ 63)
    (sub : Bytes) (rest : List Value) (c : Counter) (hsub : proxyCounter (upper sub) = some c) (count : Nat)
    (hget : (host.metricGet c s.cluster.world).1 = .int count) :
    (relay (Reply.int n).bytes = .ok (Reply.int n).bytes ↔ n.natAbs < 10 ^ 14) ∧
      ∃ rsp s', proxyKey host (.str sub :: rest) s = (.ok (some rsp), s') ∧
        (flat rsp = .ok (Reply.int count).bytes ↔ count < 10 ^ 14) := by
  refine ⟨relay_int_iff n (by simpa [Reply.wf] using hn), ?_⟩
  obtain ⟨s', hrun⟩ := proxyKey_counter host hsub rest s hget
  refine ⟨_, s', hrun, ?_⟩
  rw [flat_tab, flatTab_integer, integer_text_iff]
  constructor
  · intro h
    simpa using (text_eq_decimalInt h).2
  · intro h
    exact text_int count (by simpa using h)

/-- A host whose counters all stand at `n`. -/
def countedHost (n : Int) : Host Unit := { oneHost with metricGet := fun _ w => (.int n, w) }

theorem integers_exact_iff_small :
    relay (bytes ":-42\r\n") = .ok (bytes ":-42\r\n") ∧
      ∃ rsp s', proxyKey (countedHost 7) [.str (bytes "count")] (oneStart []).worker = (.ok (some rsp), s') ∧
        flat rsp = .ok (bytes ":7\r\n") := by
  obtain ⟨hrelay, rsp, s', hrun, hflat⟩ := integers_exact_iff (countedHost 7) (oneStart []).worker (-42) (by decide)
    (bytes "count") [] .queryCount (by decide) 7 rfl
  exact ⟨hrelay.2 (by decide), rsp, s', hrun, hflat.2 (by decide)⟩

/-- The first integer of fifteen digits loses them, as a reply and as a latency. -/
theorem integers_fifteen_digits :
    relay (bytes ":100000000000000\r\n") = .ok (bytes ":1e+14\r\n") ∧
      ∃ rsp s', proxyKey (countedHost 123456789012346) [.str (bytes "latency")] (oneStart []).worker =
          (.ok (some rsp), s') ∧
        flat rsp = .ok (bytes ":1.2345678901235e+14\r\n") := by
  refine ⟨by decide +kernel, ?_⟩
  obtain ⟨s', hrun⟩ := proxyKey_counter (countedHost 123456789012346)
    (show proxyCounter (upper (bytes "latency")) = some .latency by decide) [] (oneStart []).worker rfl
  exact ⟨_, s', hrun, by decide +kernel⟩

end NgProxy.Handler
