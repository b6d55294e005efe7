/-
The answers a command can get: a value, an error, or one of the three redirects. `cluster_error`
takes the error line apart by its words; here is what it makes of each kind.
-/
import NgProxy.Cluster.Send

namespace NgProxy.Cluster

open Lua Codec Prog Text

variable {W : Type}

/-! ## The first word of an error -/

/-- What `string_split` by blanks gives as the first part. -/
def firstWord (t : Bytes) : Bytes := t.takeWhile (· ≠ 32)

/-- The answers of a node that has not executed the command. -/
def redirectWords : List Bytes := [bytes "TRYAGAIN", bytes "ASK", bytes "MOVED"]

theorem breakAt_char (d : UInt8) (s : Bytes) :
    breakAt [d] s = match s.dropWhile (· ≠ d) with
      | [] => none
      | _ :: r => some (s.takeWhile (· ≠ d), r) := by
  induction s with
  | nil => rfl
  | cons c s ih =>
    by_cases h : c = d
    · subst h; simp [breakAt]
    · have hdrop : (c :: s).dropWhile (· ≠ d) = s.dropWhile (· ≠ d) := by simp [h]
      have htake : (c :: s).takeWhile (· ≠ d) = c :: s.takeWhile (· ≠ d) := by simp [h]
      have hpre : ¬ [d].isPrefixOf (c :: s) = true := by simpa using Ne.symm h
      rw [breakAt, if_neg hpre, ih, hdrop, htake]
      rcases s.dropWhile (· ≠ d) with _ | ⟨x, r⟩ <;> rfl

theorem splitLoop_head (d : UInt8) (n : Nat) (s : Bytes) :
    (splitLoop [d] (n + 1) s).head? = some (s.takeWhile (· ≠ d)) := by
  rw [splitLoop, breakAt_char]
  rcases hs : s.dropWhile (· ≠ d) with _ | ⟨x, r⟩
  · have := List.takeWhile_append_dropWhile (p := (· ≠ d)) (l := s)
    rw [hs, List.append_nil] at this
    simpa using this.symm
  · rfl

theorem stringSplit_head (t : Bytes) : ∃ words, stringSplit (some t) (bytes " ") 0 = some words ∧
    words.head? = some (firstWord t) :=
  ⟨_, rfl, splitLoop_head 32 999 t⟩

theorem ne_of_not_mem {d : UInt8} {a : Bytes} (ha : d ∉ a) : ∀ x ∈ a, decide (x ≠ d) = true :=
  fun _ hx => decide_eq_true fun h => ha (h ▸ hx)

theorem splitLoop_cut {d : UInt8} {a : Bytes} (ha : d ∉ a) (n : Nat) (b : Bytes) :
    splitLoop [d] (n + 1) (a ++ d :: b) = a :: splitLoop [d] n b := by
  rw [splitLoop, breakAt_char, List.dropWhile_append_of_pos (ne_of_not_mem ha),
    List.takeWhile_append_of_pos (ne_of_not_mem ha)]
  simp

theorem splitLoop_whole {d : UInt8} {a : Bytes} (ha : d ∉ a) (n : Nat) : splitLoop [d] n a = [a] := by
  cases n with
  | zero => rfl
  | succ n => rw [splitLoop, breakAt_char, List.dropWhile_eq_nil_iff.2 (ne_of_not_mem ha)]

/-- An error that is not a redirect ends the attempts: `cluster_error` opens no connection. -/
theorem clusterError_stop (net : Net W) (err : Value) (h : ∀ t, err.toStr = some t → firstWord t ∉ redirectWords)
    (s : St W) : ∀ r, (clusterError net err s).1 ≠ .ok (some r) := by
  intro r
  unfold clusterError
  rcases ht : err.toStr with _ | t
  · simp [stringSplit]
  · obtain ⟨words, hw, hhead⟩ := stringSplit_head t
    have hword := h t ht
    simp only [redirectWords, List.mem_cons, List.not_mem_nil, or_false, not_or] at hword
    obtain ⟨h1, h2, h3⟩ := hword
    rw [hw]
    simp only [hhead, Option.some.injEq, h1, h2, h3, ite_false, ne_eq, not_false_eq_true, and_self, ite_true]
    rw [bind_ok (record_run _ _)]
    simp

/-! ## Addresses -/

/-- The address a redirect names: a host and a port. -/
structure Addr where
  host : Bytes
  port : Nat
  word : ∀ b ∈ host, b ≠ 32 ∧ b ≠ 13 ∧ b ≠ 10
  port_pos : 0 < port
  port_le : port ≤ 65535

namespace Addr

def text (a : Addr) : Bytes := a.host ++ 58 :: decimal a.port

def node (a : Addr) : Node := ⟨a.host, some (.int a.port)⟩

/-- The host is no IPv6 address: `cluster_error` takes the address apart at its colons. -/
def Plain (a : Addr) : Prop := (58 : UInt8) ∉ a.host

instance (a : Addr) : Decidable a.Plain := inferInstanceAs (Decidable ((58 : UInt8) ∉ a.host))

theorem text_mem (a : Addr) : ∀ b ∈ a.text, b ≠ 32 ∧ b ≠ 13 ∧ b ≠ 10 := by
  intro b hb
  rcases List.mem_append.1 hb with hb | hb
  · exact a.word b hb
  · rcases List.mem_cons.1 hb with rfl | hb
    · decide
    · have := decimal_isDigit _ b hb
      refine ⟨?_, ?_, ?_⟩ <;> (rintro rfl; exact absurd this (by decide))

theorem split_text {a : Addr} (h : a.Plain) :
    stringSplit (some a.text) (bytes ":") 0 = some [a.host, decimal a.port] := by
  have hdigit : (58 : UInt8) ∉ decimal a.port := fun h => absurd (decimal_isDigit _ _ h) (by decide)
  refine congrArg some ?_
  exact (splitLoop_cut h 999 _).trans (congrArg (a.host :: ·) (splitLoop_whole hdigit 999))

end Addr

/-! ## Kinds of answers -/

/-- The answer to a command. -/
inductive Kind where
  | normal (r : Reply) (wf : r.wf = true) (value : r.isError = false)
  | other (t : Bytes) (line : isLine t = true) (word : firstWord t ∉ redirectWords)
  | moved (slot : Fin 16384) (a : Addr)
  | ask (slot : Fin 16384) (a : Addr)
  | tryagain (t : Bytes) (line : isLine t = true) (word : firstWord t = bytes "TRYAGAIN")

/-- The error line of a redirect: its word, a slot and an address. -/
def redirectText (word : Bytes) (slot : Nat) (a : Addr) : Bytes := word ++ 32 :: (decimal slot ++ 32 :: a.text)

namespace Kind

def reply : Kind → Reply
  | normal r _ _ => r
  | other t _ _ => .error t
  | moved slot a => .error (redirectText (bytes "MOVED") slot a)
  | ask slot a => .error (redirectText (bytes "ASK") slot a)
  | tryagain t _ _ => .error t

end Kind

theorem redirectText_line {word : Bytes} (hw : isLine word = true) (slot : Nat) (a : Addr) :
    isLine (redirectText word slot a) = true := by
  have hdec : isLine (decimal slot) = true :=
    List.all_eq_true.2 fun b hb => by simpa using decimal_line slot b hb
  have haddr : isLine a.text = true := List.all_eq_true.2 fun b hb => by simpa using (a.text_mem b hb).2
  unfold isLine at *
  simp [redirectText, hw, hdec, haddr]

theorem Kind.reply_wf (k : Kind) : k.reply.wf = true := by
  cases k with
  | normal r wf value => exact wf
  | other t line word => exact line
  | moved slot a => exact redirectText_line (by decide) slot a
  | ask slot a => exact redirectText_line (by decide) slot a
  | tryagain t line word => exact line

theorem split_words {word : Bytes} (hw : (32 : UInt8) ∉ word) (slot : Nat) {t : Bytes} (ht : (32 : UInt8) ∉ t) :
    stringSplit (some (word ++ 32 :: (decimal slot ++ 32 :: t))) (bytes " ") 0 = some [word, decimal slot, t] := by
  have hdec : (32 : UInt8) ∉ decimal slot := fun h => absurd (decimal_isDigit _ _ h) (by decide)
  refine congrArg some ?_
  calc splitLoop [32] 1000 (word ++ 32 :: (decimal slot ++ 32 :: t))
      = word :: splitLoop [32] 999 (decimal slot ++ 32 :: t) := splitLoop_cut hw 999 _
    _ = word :: decimal slot :: splitLoop [32] 998 t := by rw [splitLoop_cut hdec 998]
    _ = [word, decimal slot, t] := by rw [splitLoop_whole ht]

/-! ## What `cluster_error` makes of an answer -/

/-- The slot map after an answer. -/
def Kind.assign (m : SlotKey → Option Node) : Kind → SlotKey → Option Node
  | .moved slot a => fun j => if j = .num (.int slot) then some a.node else m j
  | _ => m

section ClusterError

variable (net : Net W) (s : St W)

theorem clusterError_other {t : Bytes} (hw : firstWord t ∉ redirectWords) :
    clusterError net (.str t) s = (.ok none, s.push [.metric .error]) := by
  obtain ⟨words, hsplit, hhead⟩ := stringSplit_head t
  simp only [redirectWords, List.mem_cons, List.not_mem_nil, or_false, not_or] at hw
  unfold clusterError
  rw [Value.toStr, hsplit]
  simp only [hhead, Option.some.injEq, hw, ite_false, ne_eq, not_false_eq_true, and_self, ite_true]
  rfl

theorem clusterError_tryagain {t : Bytes} (hw : firstWord t = bytes "TRYAGAIN") :
    clusterError net (.str t) s = getRandomConnection net s := by
  obtain ⟨words, hsplit, hhead⟩ := stringSplit_head t
  unfold clusterError
  rw [Value.toStr, hsplit]
  simp only [hhead, hw, if_true]

theorem redirect_addr (ask : Bool) (slot : Fin 16384) {a : Addr} (h : a.Plain) :
    redirect net ask (some (.int slot)) (some a.text) s =
      (do when (!ask) (moved (some (.int slot)) a.node); followNode net a.node ask : Run W (Option Conn)) s := by
  have hport : ([a.host, decimal a.port][1]?).bind tonumber = some (.int a.port) :=
    tonumber_decimal a.port (by have := a.port_le; omega)
  have hpos : (Number.int a.port).nonPos = false := by
    have := a.port_pos
    simp [Number.nonPos]
    omega
  unfold redirect
  rw [Addr.split_text h]
  simp only [hport, hpos]
  rfl

/-- The word decides whether the slot map changes and whether ASKING is sent. -/
theorem clusterError_words {word : Bytes} (hword : word = bytes "ASK" ∨ word = bytes "MOVED") (slot : Fin 16384)
    {t : Bytes} (ht : (32 : UInt8) ∉ t) :
    clusterError net (.str (word ++ 32 :: (decimal slot ++ 32 :: t))) s =
      redirect net (word = bytes "ASK") (some (.int slot)) (some t) s := by
  have hblank : (32 : UInt8) ∉ word := by rcases hword with rfl | rfl <;> decide
  have htry : ¬ [word, decimal slot, t].head? = some (bytes "TRYAGAIN") := by
    rcases hword with rfl | rfl <;> exact fun h => absurd (Option.some.inj h) (by decide)
  have hother : ¬ ([word, decimal slot, t].head? ≠ some (bytes "ASK") ∧
      [word, decimal slot, t].head? ≠ some (bytes "MOVED")) := by
    rcases hword with rfl | rfl
    · exact fun h => h.1 rfl
    · exact fun h => h.2 rfl
  have hslot : ([word, decimal slot, t][1]?).bind tonumber = some (.int slot) :=
    tonumber_decimal slot (by have := slot.isLt; omega)
  unfold clusterError
  rw [Value.toStr, split_words hblank _ ht]
  dsimp only
  rw [if_neg htry, if_neg hother, hslot]
  simp

theorem clusterError_redirect {word : Bytes} (hword : word = bytes "ASK" ∨ word = bytes "MOVED") (slot : Fin 16384)
    (a : Addr) :
    clusterError net (.str (redirectText word slot a)) s =
      redirect net (word = bytes "ASK") (some (.int slot)) (some a.text) s :=
  clusterError_words net s hword slot fun h => (a.text_mem _ h).1 rfl

theorem clusterError_moved (slot : Fin 16384) {a : Addr} (h : a.Plain) :
    clusterError net (.str (redirectText (bytes "MOVED") slot a)) s =
      followNode net a.node false
        ({ s with slots := (Kind.moved slot a).assign s.slots }.push [.metric .moved]) := by
  rw [clusterError_redirect net s (.inr rfl), decide_eq_false (by decide), redirect_addr net s _ _ h]
  rfl

theorem clusterError_ask (slot : Fin 16384) {a : Addr} (h : a.Plain) :
    clusterError net (.str (redirectText (bytes "ASK") slot a)) s = followNode net a.node true s := by
  rw [clusterError_redirect net s (.inl rfl), decide_eq_true rfl, redirect_addr net s _ _ h]
  rfl

end ClusterError

end NgProxy.Cluster
