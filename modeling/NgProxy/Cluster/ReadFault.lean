/-
Errors on a backend's connection and what `_do_cmd` learns of them. The element loop of `decode` takes
the second result of a nested call, its prefix, for the error. So the socket's error is known only if
no array had been entered, and only then does a timeout close the connection; and an error line inside
an array loses its text.
-/
import NgProxy.Cluster.Client
import NgProxy.Codec.Nested

namespace NgProxy.Cluster

open Lua Codec

variable {W : Type}

/-- A connection is closed by a reply exactly when its error is a timeout. -/
theorem reads_close_iff {input : Bytes} {fault : ErrText} {ret : Ret} {s' : Sock}
    (h : decode ⟨input, fault.text⟩ = .ok (ret, s')) (r : Conn) (ex : Option Reply) :
    .close r ∈ Answer.reads ⟨.reply input fault, ex⟩ r ↔ ret.err.eqStr (bytes "timeout") = true := by
  simp only [Answer.reads, h]
  cases ret.err.eqStr (bytes "timeout") <;> simp

/-- The table of an array that was read to its end. -/
theorem decode_array {s s₁ s₂ : Sock} {l : List Ret} (ho : Opens s l.length s₁) (hr : Reads l s₁ s₂) :
    decode s = .ok (⟨.tab (l.map cell), some typeMultiBulkReply, .nil⟩, s₂) := by
  rw [decode_opens ho, ← Nat.add_zero l.length, decodeVals_reads hr]
  rfl

/-- A `receive` that fails while a reply is read, in the outermost call of `decode` or so many arrays
deep, makes it return nil. The socket's error is returned, and a timeout closes the connection, exactly
if it was the outermost call's own. An error line among the elements of an array becomes a table of
false and its prefix, whatever it says. -/
theorem nested_errors (input : Bytes) (fault : ErrText) :
    (∀ d s', Comes d ⟨input, fault.text⟩ s' → Breaks s' →
      (∃ p err s'', decode ⟨input, fault.text⟩ = .ok (⟨.nil, some p, err⟩, s'') ∧ (err = .str fault.text ↔ d = 0)) ∧
        (fault.text = bytes "timeout" → ∀ (r : Conn) (ex : Option Reply) (s : St W), ∃ es,
          (readReply r ⟨.reply input fault, ex⟩ s).2 = s.push es ∧ (.close r ∈ es ↔ d = 0))) ∧
      ∀ (l : List Ret) (s₁ s₂ : Sock), Opens ⟨input, fault.text⟩ l.length s₁ → Reads l s₁ s₂ →
        ∃ vals, decode ⟨input, fault.text⟩ = .ok (⟨.tab vals, some typeMultiBulkReply, .nil⟩, s₂) ∧
          ∀ (i : Nat) (msg : Bytes), l[i]? = some ⟨.bool false, some typeErrorReply, .str msg⟩ →
            vals[i]? = some (.tab [.bool false, .num (.int typeErrorReply)]) := by
  constructor
  · intro d s' hc hb
    obtain ⟨p, err, s'', hd, herr⟩ := hc.breaks hb
    refine ⟨⟨p, err, s'', hd, herr⟩, ?_⟩
    intro htimeout r ex s
    refine ⟨_, by rw [readReply_run], ?_⟩
    rw [reads_close_iff hd, ← herr, htimeout]
    cases err <;> simp [Value.eqStr]
  · intro l s₁ s₂ ho hr
    refine ⟨_, decode_array ho hr, ?_⟩
    intro i msg hi
    rw [List.getElem?_map, hi]
    rfl

theorem timeout_low : ((bytes "timeout").all fun b => !(decide (65 ≤ b) && decide (b ≤ 90))) = true := by decide

/-- Nothing more arrives in time. -/
def timedOut : ErrText := ⟨bytes "timeout", timeout_low⟩

/-- A worker that has done nothing yet, and a connection of it. -/
def idle : St Unit := ⟨(), fun _ => none, [], 1, []⟩

def someConn : Conn := ⟨0, bytes "10.0.0.1", 7000⟩

theorem nested_errors_outermost :
    Comes 0 ⟨bytes "$5\r\nab", bytes "timeout"⟩ ⟨bytes "$5\r\nab", bytes "timeout"⟩ ∧
      Breaks ⟨bytes "$5\r\nab", bytes "timeout"⟩ ∧
      ∃ es, (readReply someConn ⟨.reply (bytes "$5\r\nab") timedOut, none⟩ idle).2 = idle.push es ∧
        .close someConn ∈ es := by
  have hline : Sock.receiveLine ⟨bytes "$5\r\nab", bytes "timeout"⟩ =
      (.ok (36 :: bytes "5"), ⟨bytes "ab", bytes "timeout"⟩) := by decide
  have hbreaks : Breaks ⟨bytes "$5\r\nab", bytes "timeout"⟩ := .payload hline (by rfl) rfl rfl
  obtain ⟨es, hes, hclose⟩ :=
    ((nested_errors (bytes "$5\r\nab") timedOut).1 0 _ (.here _) hbreaks).2 rfl someConn none idle
  exact ⟨.here _, hbreaks, es, hes, hclose.2 rfl⟩

/-- A timeout behind the line of an array is reported as the error 0 and closes nothing; an error
element keeps its prefix, 45, in place of its text. -/
theorem nested_errors_lost :
    (∃ s', decode ⟨bytes "*1\r\n", bytes "timeout"⟩ = .ok (⟨.nil, some 42, .num (.int 0)⟩, s')) ∧
      (readReply someConn ⟨.reply (bytes "*1\r\n") timedOut, none⟩ idle).2 =
        idle.push [.read someConn ⟨.nil, some 42, .num (.int 0)⟩] ∧
      ∃ s', decode ⟨bytes "*1\r\n-ERR no\r\n", bytes "closed"⟩ =
        .ok (⟨.tab [.tab [.bool false, .num (.int 45)]], some 42, .nil⟩, s') :=
  ⟨⟨_, by rfl⟩, by rfl, _, by rfl⟩

end NgProxy.Cluster
