/-
What `decode` reports on an arbitrary byte stream: besides values and error lines only the error of
the socket, the prefix of an array element that could not be read, and a complaint about an unknown
prefix. It never needs more recursion than there is input.
-/
import NgProxy.Codec.Proto

namespace NgProxy.Codec

open Lua Text

/-- The results `decode` can give besides a value: an error line, the socket's error, the prefix of
a failed element, or a complaint about an unknown prefix. -/
inductive ErrFrom (fault : Bytes) : Ret → Prop
  | value (v : Value) (p : Option Nat) : ErrFrom fault ⟨v, p, .nil⟩
  | line (t : Bytes) : ErrFrom fault ⟨.bool false, some typeErrorReply, .str t⟩
  | socket (p : Option Nat) : ErrFrom fault ⟨.nil, p, .str fault⟩
  | element (p : Option Nat) (n : Nat) (h : n < 256) : ErrFrom fault ⟨.nil, p, .num (.int n)⟩
  | unknown (p : Option Nat) (t : Bytes) : ErrFrom fault ⟨.nil, p, .str (bytes "unkown prefix: \"" ++ t)⟩

/-- A result of `decode` at a socket with this fault; the prefix is a byte. -/
def DecodeOk (fault : Bytes) (r : Except LuaError (Ret × Sock)) : Prop :=
  ∀ ret s, r = .ok (ret, s) → s.fault = fault ∧ ErrFrom fault ret ∧ ∀ p, ret.pre = some p → p < 256

theorem receiveLine_fault (s : Sock) : s.receiveLine.2.fault = s.fault := by
  unfold Sock.receiveLine
  split <;> rfl

theorem receive_fault {n : Int} {s s' : Sock} {r : Except Bytes Bytes} (h : s.receive n = .ok (r, s')) :
    s'.fault = s.fault ∧ ∀ e, r = .error e → e = s.fault := by
  unfold Sock.receive at h
  split at h
  · cases h
  · split at h
    · cases h; exact ⟨rfl, fun e he => by cases he⟩
    · cases h; exact ⟨rfl, fun e he => by cases he; rfl⟩

theorem decodeBulk_err (text : Bytes) (s : Sock) : DecodeOk s.fault (decodeBulk text s) := by
  intro ret s' h
  have hp : typeBulkReply < 256 := by decide
  unfold decodeBulk at h
  split at h
  · cases h
  · split at h
    · cases h; exact ⟨rfl, .value _ _, fun p hp' => by cases hp'; exact hp⟩
    · split at h
      · cases h
      · rename_i hr
        obtain ⟨hf, he⟩ := receive_fault hr
        cases h
        obtain rfl := he _ rfl
        exact ⟨hf, .socket _, fun p hp' => by cases hp'; exact hp⟩
      · rename_i hr
        obtain ⟨hf, -⟩ := receive_fault hr
        split at h
        · cases h
        · rename_i hr'
          obtain ⟨hf', he⟩ := receive_fault hr'
          cases h
          obtain rfl := he _ rfl
          rw [hf] at hf' ⊢
          exact ⟨hf', .socket _, fun p hp' => by cases hp'; exact hp⟩
        · rename_i hr'
          obtain ⟨hf', -⟩ := receive_fault hr'
          cases h
          exact ⟨hf'.trans hf, .value _ _, fun p hp' => by cases hp'; exact hp⟩

theorem decodeVals_err {dec : Sock → Except LuaError (Ret × Sock)} (hdec : ∀ s, DecodeOk s.fault (dec s)) {pre : Nat}
    (hpre : pre < 256) (n : Nat) (vals : List Value) (s : Sock) :
    DecodeOk s.fault (decodeVals dec pre n vals s) := by
  induction n generalizing vals s with
  | zero =>
    intro ret s' h
    cases h
    exact ⟨rfl, .value _ _, fun p hp => by cases hp; exact hpre⟩
  | succ n ih =>
    intro ret s' h
    rw [decodeVals] at h
    rcases hd : dec s with e | ⟨r, s₁⟩ <;> rw [hd] at h
    · cases h
    · obtain ⟨hf, -, hp⟩ := hdec s r s₁ hd
      dsimp only at h
      split at h
      · cases h
        refine ⟨hf, ?_, fun p hp' => by cases hp'; exact hpre⟩
        rcases hr : r.pre with _ | p
        · exact .value _ _
        · exact .element _ p (hp p hr)
      · rw [← hf]; exact ih _ _ ret s' h
      · rw [← hf]; exact ih _ _ ret s' h

theorem decodeAux_err (fuel : Nat) (s : Sock) : DecodeOk s.fault (decodeAux fuel s) := by
  induction fuel generalizing s with
  | zero => intro ret s' h; cases h
  | succ fuel ih =>
    intro ret s' h
    rw [decodeAux] at h
    have hfault := receiveLine_fault s
    rcases hl : s.receiveLine with ⟨e | _ | ⟨b, text⟩, s₁⟩ <;> rw [hl] at h hfault <;> dsimp only at h hfault
    · have he : e = s.fault := by
        unfold Sock.receiveLine at hl
        split at hl <;> cases hl
        rfl
      subst he
      cases h
      exact ⟨hfault, .socket _, fun p hp => by cases hp; decide⟩
    · cases h
      exact ⟨hfault, .value _ _, fun p hp => by cases hp; decide⟩
    · rw [← hfault]
      have hb := b.toNat_lt
      split at h
      · exact decodeBulk_err text s₁ ret s' h
      split at h
      · cases h; exact ⟨rfl, .value _ _, fun p hp => by cases hp; decide⟩
      split at h
      · unfold decodeMulti at h
        split at h
        · cases h
        · split at h
          · cases h; exact ⟨rfl, .value _ _, fun p hp => by cases hp; decide⟩
          · split at h
            · cases h
            · exact decodeVals_err ih (by decide) _ _ _ ret s' h
      split at h
      · cases h; exact ⟨rfl, .value _ _, fun p hp => by cases hp; decide⟩
      split at h
      · cases h; exact ⟨rfl, .line _, fun p hp => by cases hp; decide⟩
      · cases h
        exact ⟨rfl, by rw [List.append_assoc]; exact .unknown _ _, fun p hp => by cases hp; exact hb⟩

/-- `decode` on an arbitrary stream. -/
theorem decode_err (s : Sock) : DecodeOk s.fault (decode s) := decodeAux_err _ s

/-! ## The recursion bound -/

/-- The bound was not reached, and at most `n` bytes of input are left. -/
def Bounded (n : Nat) : Except LuaError (Ret × Sock) → Prop
  | .error e => e ≠ .fuel
  | .ok (_, s) => s.input.length ≤ n

theorem Bounded.mono {m n : Nat} (hmn : m ≤ n) {r : Except LuaError (Ret × Sock)} (h : Bounded m r) : Bounded n r := by
  rcases r with e | ⟨ret, s⟩
  · exact h
  · exact le_trans h hmn

theorem receiveLine_lt {s s' : Sock} {l : Bytes} (h : s.receiveLine = (.ok l, s')) :
    s'.input.length < s.input.length := by
  unfold Sock.receiveLine at h
  split at h <;> cases h
  rename_i b rest hd
  have hle := (List.dropWhile_suffix (l := s.input) (· ≠ 10)).length_le
  rw [hd, List.length_cons] at hle
  exact hle

theorem receiveLine_error {s s' : Sock} {e : Bytes} (h : s.receiveLine = (.error e, s')) : s'.input = [] := by
  unfold Sock.receiveLine at h
  split at h <;> cases h
  rfl

theorem receive_bounded (n : Int) (s : Sock) :
    (∀ e, s.receive n = .error e → e ≠ .fuel) ∧
      ∀ r s', s.receive n = .ok (r, s') → s'.input.length ≤ s.input.length := by
  unfold Sock.receive
  split
  · constructor
    · rintro e ⟨⟩
      decide
    · rintro r s' ⟨⟩
  · split
    all_goals
      constructor
      · rintro e ⟨⟩
      · rintro r s' ⟨⟩
        simp

theorem decodeBulk_bounded (text : Bytes) (s : Sock) : Bounded s.input.length (decodeBulk text s) := by
  unfold decodeBulk
  split
  · exact LuaError.noConfusion
  · rename_i size _
    split
    · exact Nat.le_refl _
    · obtain ⟨herr, hok⟩ := receive_bounded size.toInteger s
      split
      · exact herr _ ‹_›
      · exact hok _ _ ‹_›
      · rename_i s₁ hr
        obtain ⟨herr', hok'⟩ := receive_bounded 2 s₁
        split
        · exact herr' _ ‹_›
        · exact (hok' _ _ ‹_›).trans (hok _ _ hr)
        · exact (hok' _ _ ‹_›).trans (hok _ _ hr)

theorem decodeVals_bounded {dec : Sock → Except LuaError (Ret × Sock)} {k : Nat}
    (hdec : ∀ s, s.input.length ≤ k → Bounded s.input.length (dec s)) (pre n : Nat) (vals : List Value) (s : Sock)
    (hs : s.input.length ≤ k) : Bounded s.input.length (decodeVals dec pre n vals s) := by
  induction n generalizing vals s with
  | zero => exact Nat.le_refl _
  | succ n ih =>
    have h := hdec s hs
    rw [decodeVals]
    rcases hd : dec s with e | ⟨r, s₁⟩ <;> rw [hd] at h
    · exact h
    · dsimp only
      split
      · exact h
      · exact (ih _ s₁ (le_trans h hs)).mono h
      · exact (ih _ s₁ (le_trans h hs)).mono h

theorem decodeAux_bounded (fuel : Nat) (s : Sock) (hs : s.input.length < fuel) :
    Bounded s.input.length (decodeAux fuel s) := by
  induction fuel generalizing s with
  | zero => omega
  | succ fuel ih =>
    rw [decodeAux]
    rcases hl : s.receiveLine with ⟨e | _ | ⟨b, text⟩, s₁⟩ <;> dsimp only
    · show s₁.input.length ≤ _
      rw [receiveLine_error hl]
      exact Nat.zero_le _
    · exact (receiveLine_lt hl).le
    · have hlt := receiveLine_lt hl
      refine Bounded.mono hlt.le ?_
      split
      · exact decodeBulk_bounded text s₁
      split
      · exact Nat.le_refl _
      split
      · unfold decodeMulti
        split
        · exact LuaError.noConfusion
        · split
          · exact Nat.le_refl _
          · split
            · rename_i hn
              unfold newTab at hn
              split at hn <;> cases hn
              exact LuaError.noConfusion
            -- an element is read from what the line has left
            · exact decodeVals_bounded (k := s₁.input.length) (fun s hs' => ih s (by omega)) _ _ _ s₁ le_rfl
      split
      · exact Nat.le_refl _
      split
      · exact Nat.le_refl _
      · exact Nat.le_refl _

/-- The bound of `decode` is never reached: it returns, or raises what Lua raises. -/
theorem decode_fuel (s : Sock) : decode s ≠ .error .fuel := by
  intro h
  have hb := decodeAux_bounded _ s (Nat.lt_succ_self _)
  rw [show decodeAux (s.input.length + 1) s = decode s from rfl, h] at hb
  exact hb rfl

end NgProxy.Codec
