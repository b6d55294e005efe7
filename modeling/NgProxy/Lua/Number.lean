/-
Lua numbers: IEEE doubles, the text scanner behind `tonumber` (`lj_strscan_scan` of the bundled
LuaJIT) and the `%.14g` text of a number, which `tostring`, `..` and the socket's `send` produce.
A finite double is an integer or a dyadic fraction; signed zeros are not told apart.
-/
import NgProxy.Lib.Text
import Mathlib.Data.List.TakeWhile

namespace NgProxy.Lua

open Text

/-! ## Doubles -/

/-- A Lua number. `frac m k` is the non-integral double `m / 2^k`. -/
inductive Number where
  | int (n : Int)
  | frac (m : Int) (k : Nat)
  | inf (neg : Bool)
  | nan
  deriving DecidableEq, Repr

/-- The magnitude `m` with a sign. -/
def signed (neg : Bool) (m : Nat) : Int := if neg then -(m : Int) else m

/-- `m / 2^k` in lowest terms. -/
def dyadic (neg : Bool) (m k : Nat) : Number :=
  let g := Nat.gcd m (2 ^ k)
  if m % 2 ^ k = 0 then .int (signed neg (m / 2 ^ k)) else .frac (signed neg (m / g)) (Nat.log2 (2 ^ k / g))

/-- The double nearest to `±p / q`, ties to even, overflowing to an infinity. -/
def roundRatio (neg : Bool) (p q : Nat) : Number :=
  let l0 : Int := (Nat.log2 p : Int) - Nat.log2 q
  -- `⌊log₂ (p / q)⌋` is `l0` or one less
  let l := if q * 2 ^ l0.toNat ≤ p * 2 ^ (-l0).toNat then l0 else l0 - 1
  let e := max l (-1022) - 52
  let num := p * 2 ^ (-e).toNat
  let den := q * 2 ^ e.toNat
  let m := if den < 2 * (num % den) ∨ (2 * (num % den) = den ∧ num / den % 2 = 1) then num / den + 1 else num / den
  if 0 ≤ e then
    if 2 ^ 1024 ≤ m * 2 ^ e.toNat then .inf neg else .int (signed neg (m * 2 ^ e.toNat))
  else dyadic neg m (-e).toNat

/-- The double nearest to `±p / q`. An integer up to `2^53` is a double itself. -/
def ofRatio (neg : Bool) (p q : Nat) : Number :=
  if p % q = 0 ∧ p / q ≤ 2 ^ 53 then .int (signed neg (p / q)) else roundRatio neg p q

namespace Number

/-- `x < 0`. -/
def isNeg : Number → Bool
  | .int n => n < 0
  | .frac m _ => m < 0
  | .inf neg => neg
  | .nan => false

/-- `x <= 0`. -/
def nonPos : Number → Bool
  | .int n => n ≤ 0
  | .frac m _ => m ≤ 0
  | .inf neg => neg
  | .nan => false

/-- `lua_tointeger`: truncation to 64 bits; what does not fit becomes the least integer. -/
def toInteger : Number → Int
  | .int n => if -2 ^ 63 ≤ n ∧ n < 2 ^ 63 then n else -2 ^ 63
  | .frac m k => Int.tdiv m (2 ^ k)
  | .inf _ => -2 ^ 63
  | .nan => -2 ^ 63

/-- How often the body of `for i = 1, x` runs: `none` when the loop has no end of its own. -/
def loopCount : Number → Option Nat
  | .int n => some n.toNat
  | .frac m k => some (m / 2 ^ k).toNat
  | .inf neg => if neg then some 0 else none
  | .nan => some 0

/-- A finite double is `mant / 2^exp`. -/
def mant : Number → Int
  | .int n => n
  | .frac m _ => m
  | _ => 0

def exp : Number → Nat
  | .frac _ k => k
  | _ => 0

/-- `x + y`. -/
def add : Number → Number → Number
  | .nan, _ => .nan
  | _, .nan => .nan
  | .inf a, .inf b => if a = b then .inf a else .nan
  | .inf a, _ => .inf a
  | _, .inf b => .inf b
  | x, y =>
    let s := x.mant * 2 ^ y.exp + y.mant * 2 ^ x.exp
    ofRatio (s < 0) s.natAbs (2 ^ (x.exp + y.exp))

/-- `-x`. -/
def neg : Number → Number
  | .int n => .int (-n)
  | .frac m k => .frac (-m) k
  | .inf s => .inf (!s)
  | .nan => .nan

/-- `x - y`. -/
def sub (x y : Number) : Number := x.add y.neg

/-- `x <= y`. -/
def le : Number → Number → Bool
  | .nan, _ => false
  | _, .nan => false
  | .inf a, .inf b => a || !b
  | .inf a, _ => a
  | _, .inf b => !b
  | x, y => x.mant * 2 ^ y.exp ≤ y.mant * 2 ^ x.exp

/-- The values `i` takes in `for i = x, y`, within a number of steps: `none` when it would take more, or
when `i + 1` is `i`. -/
def forLoop : Nat → Number → Number → Option (List Number)
  | 0, _, _ => none
  | n + 1, x, y =>
    if x.le y then
      if x.add (.int 1) = x then none else (forLoop n (x.add (.int 1)) y).map (x :: ·)
    else some []

/-- `for i = x, y` with `x` not negative: above `2^53` the loop stops moving, so that it has ended
after so many steps, or never does. -/
def forValues (x y : Number) : Option (List Number) := forLoop (2 ^ 53 + 4) x y

end Number

/-! ## `tonumber` -/

/-- `lj_char_isspace`. -/
def isSpace (b : UInt8) : Bool := b == 32 || (decide (9 ≤ b) && decide (b ≤ 13))

/-- `casecmp`: equal up to the letter case of `c`; `k` is lower case. -/
def casecmp (c k : UInt8) : Bool := (c ||| 0x20) == k

/-- `s` starts with the lower-case word, in any letter case: the rest of `s`. -/
def dropWord : Bytes → Bytes → Option Bytes
  | [], s => some s
  | _ :: _, [] => none
  | k :: ks, c :: s => if casecmp c k then dropWord ks s else none

/-- A digit of the base. -/
def isDigitOf (base : Nat) (b : UInt8) : Bool :=
  if base = 16 then isDigit b || (decide (97 ≤ b ||| 0x20) && decide (b ||| 0x20 ≤ 102)) else isDigit b

/-- The value of a digit of base 2, 10 or 16. -/
def digitOf (b : UInt8) : Nat := if isDigit b then digitVal b else (b ||| 0x20).toNat - 87

/-- The exponent after `e` (base 10) or `p` (base 16), and what follows. -/
def scanExp (base : Nat) : Bytes → Option (Int × Bytes)
  | [] => some (0, [])
  | c :: s =>
    if base ≠ 2 ∧ casecmp c (if base = 16 then 112 else 101) = true then
      let neg := s.head? == some 45
      let s := if s.head? == some 43 || neg then s.tail else s
      let ds := s.takeWhile isDigit
      if ds = [] then none else some (signed neg (readNat ds), s.dropWhile isDigit)
    else some (0, c :: s)

/-- Integer digits, fraction digits (after the decimal point) and what follows. -/
def scanMant (base : Nat) (s : Bytes) : Bytes × Bytes × Bytes :=
  let ip := s.takeWhile (isDigitOf base)
  match s.dropWhile (isDigitOf base) with
  | [] => (ip, [], [])
  | c :: r => if c = 46 then (ip, r.takeWhile (isDigitOf base), r.dropWhile (isDigitOf base)) else (ip, [], c :: r)

/-- The value of the scanned digits. Base 2 takes the digits 0 and 1, no fraction and 64 bits. -/
def scanValue (neg : Bool) (base : Nat) (ip fp : Bytes) (ex : Int) : Option Number :=
  let m := (ip ++ fp).foldl (fun a b => base * a + digitOf b) 0
  if base = 2 then
    if (ip.all fun b => b == 48 || b == 49) && fp.all (· == 48) && (ip.dropWhile (· == 48)).length ≤ 64 then
      some (ofRatio neg (m / 2 ^ fp.length) 1)
    else none
  else
    let e := if base = 16 then ex - 4 * fp.length else ex - fp.length
    let b := if base = 16 then 2 else 10
    some (ofRatio neg (m * b ^ e.toNat) (b ^ (-e).toNat))

/-- Base prefix, digits, exponent, trailing blanks. -/
def scanRegular (neg : Bool) (s : Bytes) : Option Number :=
  let c0 := s.headD 0
  let c1 := s.tail.headD 0
  let base := if c0 = 48 ∧ casecmp c1 120 = true then 16 else if c0 = 48 ∧ casecmp c1 98 = true then 2 else 10
  let s := if base = 10 then s else s.drop 2
  match scanMant base s with
  | (ip, fp, rest) =>
    if ip = [] ∧ fp = [] then none
    else
      match scanExp base rest with
      | none => none
      | some (ex, rest) => if rest.dropWhile isSpace = [] then scanValue neg base ip fp ex else none

/-- `inf`, `infinity` and `nan`, in any letter case. -/
def scanWord (neg : Bool) (s : Bytes) : Option Number :=
  match dropWord (bytes "inf") s with
  | some r =>
    let r := (dropWord (bytes "inity") r).getD r
    if r.dropWhile isSpace = [] then some (.inf neg) else none
  | none =>
    match dropWord (bytes "nan") s with
    | some r => if r.dropWhile isSpace = [] then some .nan else none
    | none => none

/-- `tonumber` of a string: `lj_strscan_scan`, which stops at the first zero byte. -/
def tonumber (str : Bytes) : Option Number :=
  let s := str.takeWhile (· ≠ 0)
  if isDigit (s.headD 0) then scanRegular false s
  else
    let s := s.dropWhile isSpace
    let neg := s.headD 0 == 45
    let s := if s.headD 0 == 43 || neg then s.tail else s
    if 65 ≤ s.headD 0 then scanWord neg s else scanRegular neg s

/-! ## `tostring` -/

/-- Drop trailing zeros. -/
def stripZeros (ds : Bytes) : Bytes := (ds.reverse.dropWhile (· == 48)).reverse

/-- The fraction after a decimal point, nothing when it is all zeros. -/
def fraction (ds : Bytes) : Bytes := if stripZeros ds = [] then [] else 46 :: stripZeros ds

/-- `%.14g` of `±p / q > 0`: fourteen significant digits, half up, the exponent form outside `1e-4 … 1e14`. -/
def g14 (neg : Bool) (p q : Nat) : Bytes :=
  let x0 : Int := ((decimal p).length : Int) - (decimal q).length
  let x := if q * 10 ^ x0.toNat ≤ p * 10 ^ (-x0).toNat then x0 else x0 - 1
  let num := p * 10 ^ (13 - x).toNat
  let den := q * 10 ^ (x - 13).toNat
  let m0 := (2 * num + den) / (2 * den)
  let m := if m0 = 10 ^ 14 then 10 ^ 13 else m0
  let x := if m0 = 10 ^ 14 then x + 1 else x
  let ds := decimal m
  let body :=
    if -4 ≤ x ∧ x ≤ 13 then
      if 0 ≤ x then ds.take (x.toNat + 1) ++ fraction (ds.drop (x.toNat + 1))
      else 48 :: fraction (List.replicate (-x - 1).toNat 48 ++ ds)
    else
      let ex := decimal x.natAbs
      ds.take 1 ++ fraction (ds.drop 1) ++ [101, if x < 0 then 45 else 43] ++
        (if ex.length < 2 then 48 :: ex else ex)
  if neg then 45 :: body else body

/-- The text of a number: `%.14g`. An integer of at most fourteen digits prints all of them. -/
def Number.text : Number → Bytes
  | .int n => if n.natAbs < 10 ^ 14 then decimalInt n else g14 (n < 0) n.natAbs 1
  | .frac m k => g14 (m < 0) m.natAbs (2 ^ k)
  | .inf neg => if neg then bytes "-inf" else bytes "inf"
  | .nan => bytes "nan"

/-! ## Decimal integers -/

theorem casecmp_digit {b : UInt8} (h : isDigit b = true) {k : UInt8} (hk : k = 120 ∨ k = 98) :
    casecmp b k = false := by
  have hall : ∀ n < 256, isDigit (UInt8.ofNat n) = true →
      casecmp (UInt8.ofNat n) 120 = false ∧ casecmp (UInt8.ofNat n) 98 = false := by decide +kernel
  obtain ⟨h1, h2⟩ := UInt8.ofNat_toNat (x := b) ▸ hall b.toNat b.toNat_lt (by rwa [UInt8.ofNat_toNat])
  rcases hk with rfl | rfl
  · exact h1
  · exact h2

theorem foldl_digitOf (ds : Bytes) (h : ∀ b ∈ ds, isDigit b = true) :
    ds.foldl (fun a b => 10 * a + digitOf b) 0 = readNat ds := by
  unfold readNat
  apply List.foldl_ext
  intro a b hb
  simp [digitOf, h b hb]

theorem casecmp_space {b : UInt8} (h : isSpace b = true) {k : UInt8} (hk : k = 120 ∨ k = 98 ∨ k = 101) :
    casecmp b k = false := by
  have hall : ∀ n < 256, isSpace (UInt8.ofNat n) = true → casecmp (UInt8.ofNat n) 120 = false ∧
      casecmp (UInt8.ofNat n) 98 = false ∧ casecmp (UInt8.ofNat n) 101 = false := by decide +kernel
  obtain ⟨h1, h2, h3⟩ := UInt8.ofNat_toNat (x := b) ▸ hall b.toNat b.toNat_lt (by rwa [UInt8.ofNat_toNat])
  rcases hk with rfl | rfl | rfl
  · exact h1
  · exact h2
  · exact h3

theorem space_not_digit {b : UInt8} (h : isSpace b = true) : isDigitOf 10 b = false ∧ b ≠ 46 := by
  have hall : ∀ n < 256, isSpace (UInt8.ofNat n) = true →
      isDigitOf 10 (UInt8.ofNat n) = false ∧ UInt8.ofNat n ≠ 46 := by decide +kernel
  exact UInt8.ofNat_toNat (x := b) ▸ hall b.toNat b.toNat_lt (by rwa [UInt8.ofNat_toNat])

/-- Digits, and then nothing or something behind a blank. -/
theorem scanMant_digits {ds r : Bytes} (h : ∀ b ∈ ds, isDigit b = true) (hr : ∀ c ∈ r.head?, isSpace c = true) :
    scanMant 10 (ds ++ r) = (ds, [], r) := by
  have hds : ∀ b ∈ ds, isDigitOf 10 b = true := fun b hb => by simp [isDigitOf, h b hb]
  unfold scanMant
  rw [List.takeWhile_append_of_pos hds, List.dropWhile_append_of_pos hds]
  rcases r with _ | ⟨c, r⟩
  · simp
  · obtain ⟨hdig, hdot⟩ := space_not_digit (hr c rfl)
    simp [hdig, hdot]

theorem scanExp_blank {r : Bytes} (hr : ∀ c ∈ r.head?, isSpace c = true) : scanExp 10 r = some (0, r) := by
  rcases r with _ | ⟨c, r⟩
  · rfl
  · simp [scanExp, casecmp_space (hr c rfl) (.inr (.inr rfl))]

/-- A run of digits scans as the number it denotes, with blanks behind it but nothing else. -/
theorem scanRegular_digits (neg : Bool) {ds r : Bytes} (hne : ds ≠ []) (h : ∀ b ∈ ds, isDigit b = true)
    (hr : ∀ c ∈ r.head?, isSpace c = true) :
    scanRegular neg (ds ++ r) = if r.dropWhile isSpace = [] then some (ofRatio neg (readNat ds) 1) else none := by
  have hc1 : ∀ k : UInt8, k = 120 ∨ k = 98 → casecmp ((ds ++ r).tail.headD 0) k = false := by
    intro k hk
    obtain ⟨d, ds, rfl⟩ := List.exists_cons_of_ne_nil hne
    rcases ds with _ | ⟨d', ds⟩
    · rcases r with _ | ⟨c, r⟩
      · show casecmp 0 k = false
        rcases hk with rfl | rfl <;> decide
      · exact casecmp_space (hr c rfl) (hk.imp_right .inl)
    · exact casecmp_digit (h d' (by simp)) hk
  unfold scanRegular
  simp only [hc1 120 (.inl rfl), hc1 98 (.inr rfl), Bool.false_eq_true, and_false, ite_false, ite_true,
    scanMant_digits h hr, hne, false_and, scanExp_blank hr]
  simp [scanValue, foldl_digitOf ds h]

theorem takeWhile_nonzero (ds : Bytes) (h : ∀ b ∈ ds, b ≠ 0) : ds.takeWhile (· ≠ 0) = ds := by
  rw [List.takeWhile_eq_self_iff]; intro b hb; simpa using h b hb

theorem isDigit_ne_zero {b : UInt8} (h : isDigit b = true) : b ≠ 0 := by
  rintro rfl; exact absurd h (by decide)

/-- `tonumber` of a run of digits, with nothing or something behind a blank after it. -/
theorem tonumber_digits_rest {ds r : Bytes} (hne : ds ≠ []) (h : ∀ b ∈ ds, isDigit b = true)
    (hr : ∀ c ∈ r.head?, isSpace c = true) (hz : ∀ b ∈ r, b ≠ 0) :
    tonumber (ds ++ r) = if r.dropWhile isSpace = [] then some (ofRatio false (readNat ds) 1) else none := by
  obtain ⟨b, l, rfl⟩ := List.exists_cons_of_ne_nil hne
  unfold tonumber
  rw [takeWhile_nonzero _ fun x hx => (List.mem_append.1 hx).elim (fun hx => isDigit_ne_zero (h x hx)) (hz x)]
  simp only [List.cons_append, List.headD_cons, h b (List.mem_cons_self ..), ite_true]
  exact scanRegular_digits false hne h hr

/-- `tonumber` of a run of digits. -/
theorem tonumber_digits (ds : Bytes) (hne : ds ≠ []) (h : ∀ b ∈ ds, isDigit b = true) :
    tonumber ds = some (ofRatio false (readNat ds) 1) := by
  simpa using tonumber_digits_rest (r := []) hne h (by simp) (by simp)

/-- `tonumber` of `-` and a run of digits. -/
theorem tonumber_neg_digits (ds : Bytes) (hne : ds ≠ []) (h : ∀ b ∈ ds, isDigit b = true) :
    tonumber (45 :: ds) = some (ofRatio true (readNat ds) 1) := by
  obtain ⟨b, r, rfl⟩ := List.exists_cons_of_ne_nil hne
  have hb : isDigit b = true := h b (List.mem_cons_self ..)
  have hb' : ¬ (65 : UInt8) ≤ b := by
    rw [UInt8.le_iff_toNat_le]
    have := (isDigit_iff b).1 hb
    simp; omega
  unfold tonumber
  rw [takeWhile_nonzero _ (by
    intro x hx
    rcases List.mem_cons.1 hx with rfl | hx
    · decide
    · exact isDigit_ne_zero (h x hx))]
  simp only [List.headD_cons, show isDigit 45 = false by decide, Bool.false_eq_true, ite_false,
    show List.dropWhile isSpace (45 :: b :: r) = 45 :: b :: r by rfl, show ((45 : UInt8) == 45) = true by decide,
    Bool.or_true, ite_true, List.tail_cons, hb']
  simpa using scanRegular_digits true (r := []) hne h (by simp)

theorem ofRatio_int (neg : Bool) (n : Nat) (h : n ≤ 2 ^ 53) : ofRatio neg n 1 = .int (signed neg n) := by
  unfold ofRatio
  rw [if_pos ⟨Nat.mod_one n, by simpa using h⟩]
  simp

theorem add_int (a b : Int) (h : (a + b).natAbs ≤ 2 ^ 53) : (Number.int a).add (.int b) = .int (a + b) := by
  have hadd : (Number.int a).add (.int b) = ofRatio (decide (a + b < 0)) (a + b).natAbs 1 := by
    simp [Number.add, Number.mant, Number.exp]
  rw [hadd, ofRatio_int _ _ h]
  simp only [signed, decide_eq_true_eq, Number.int.injEq]
  split <;> omega

theorem tonumber_decimal (n : Nat) (h : n ≤ 2 ^ 53) : tonumber (decimal n) = some (.int n) := by
  rw [tonumber_digits _ (decimal_ne_nil _) (decimal_isDigit _), readNat_decimal, ofRatio_int _ _ h]
  rfl

/-! ## Texts that are no numbers -/

theorem mem_dropWhile {α : Type} {p : α → Bool} {a : α} {l : List α} (h : a ∈ l) (hp : p a = false) :
    a ∈ l.dropWhile p := by
  rw [← List.takeWhile_append_dropWhile (p := p) (l := l), List.mem_append] at h
  exact h.resolve_left fun ht => by simp [List.mem_takeWhile_imp ht] at hp

theorem scanMant_colon (base : Nat) {s : Bytes} (h : (58 : UInt8) ∈ s) : 58 ∈ (scanMant base s).2.2 := by
  have hdig : isDigitOf base 58 = false := by unfold isDigitOf; split <;> decide
  have hmem := mem_dropWhile h hdig
  unfold scanMant
  split
  · rename_i hs
    simp [hs] at hmem
  · rename_i c r hs
    rw [hs] at hmem
    split
    · rename_i hc
      exact mem_dropWhile ((List.mem_cons.1 hmem).resolve_left (by rw [hc]; decide)) hdig
    · exact hmem

/-- A colon is no sign: it stays when one is taken off. -/
theorem mem_tail_colon {s : Bytes} {c : Bool} (h : (58 : UInt8) ∈ s) (hc : c = true → s.head? ≠ some 58) :
    58 ∈ (if c = true then s.tail else s) := by
  split
  · rename_i hsign
    rcases s with _ | ⟨d, s⟩
    · exact h
    · refine (List.mem_cons.1 h).resolve_left ?_
      rintro rfl
      exact hc hsign rfl
  · exact h

theorem scanExp_colon {base : Nat} {s r : Bytes} {ex : Int} (h : (58 : UInt8) ∈ s)
    (hs : scanExp base s = some (ex, r)) : 58 ∈ r := by
  rcases s with _ | ⟨c, s⟩
  · simp at h
  · rw [scanExp] at hs
    by_cases hc : base ≠ 2 ∧ casecmp c (if base = 16 then 112 else 101) = true
    · have hne : (58 : UInt8) ≠ c := by
        rintro rfl
        have h58 : casecmp 58 (if base = 16 then 112 else 101) = false := by split <;> decide
        simp [h58] at hc
      have hmem := (List.mem_cons.1 h).resolve_left hne
      have hsign := mem_tail_colon (c := s.head? == some 43 || s.head? == some 45) hmem (by
        intro hc he
        simp [he] at hc)
      rw [if_pos hc] at hs
      dsimp only at hs
      generalize (if (s.head? == some 43 || s.head? == some 45) = true then s.tail else s) = t at hs hsign
      split at hs
      · cases hs
      · cases hs
        exact mem_dropWhile hsign (by decide)
    · rw [if_neg hc] at hs
      cases hs
      exact h

theorem dropWhile_space_colon {r : Bytes} (h : (58 : UInt8) ∈ r) : r.dropWhile isSpace ≠ [] :=
  List.ne_nil_of_mem (mem_dropWhile h (by decide))

theorem scanRegular_colon (neg : Bool) {s : Bytes} (h : (58 : UInt8) ∈ s) : scanRegular neg s = none := by
  unfold scanRegular
  dsimp only
  generalize hbase : (if s.headD 0 = 48 ∧ casecmp (s.tail.headD 0) 120 = true then 16
    else if s.headD 0 = 48 ∧ casecmp (s.tail.headD 0) 98 = true then 2 else 10) = base
  -- a base prefix holds no colon
  have hmem : 58 ∈ (if base = 10 then s else s.drop 2) := by
    split
    · exact h
    · rename_i hne
      rcases s with _ | ⟨c, _ | ⟨d, s⟩⟩
      · simp at h
      · exfalso
        refine hne (hbase.symm.trans ?_)
        simp [casecmp]
      · have hcd : c = 48 ∧ d ≠ 58 := by
          by_contra hn
          refine hne (hbase.symm.trans ?_)
          by_cases hc : c = 48
          · have hd : d = 58 := by simpa [hc] using hn
            have h1 : casecmp 58 120 = false := by decide
            have h2 : casecmp 58 98 = false := by decide
            simp [hd, h1, h2]
          · simp [hc]
        obtain ⟨rfl, hd⟩ := hcd
        simpa [Ne.symm hd] using h
  have hrest := scanMant_colon base hmem
  rcases hm : scanMant base (if base = 10 then s else s.drop 2) with ⟨ip, fp, rest⟩
  rw [hm] at hrest
  dsimp only
  split
  · rfl
  · rcases he : scanExp base rest with _ | ⟨ex, rest'⟩
    · rfl
    · dsimp only
      rw [if_neg (dropWhile_space_colon (scanExp_colon hrest he))]

theorem dropWord_colon {w s r : Bytes} (hw : ∀ k ∈ w, k ≠ 58) (h : (58 : UInt8) ∈ s) (hs : dropWord w s = some r) :
    58 ∈ r := by
  induction w generalizing s with
  | nil => cases hs; exact h
  | cons k w ih =>
    rcases s with _ | ⟨c, s⟩
    · simp at h
    · unfold dropWord at hs
      split at hs
      · rename_i hc
        refine ih (fun k hk => hw k (List.mem_cons_of_mem _ hk)) ((List.mem_cons.1 h).resolve_left ?_) hs
        rintro rfl
        exact hw k (List.mem_cons_self ..) (beq_iff_eq.1 hc).symm
      · cases hs

theorem scanWord_colon (neg : Bool) {s : Bytes} (h : (58 : UInt8) ∈ s) : scanWord neg s = none := by
  unfold scanWord
  split
  · rename_i r hr
    have hmem := dropWord_colon (by simp [bytes]) h hr
    have hmem' : 58 ∈ (dropWord (bytes "inity") r).getD r := by
      rcases hd : dropWord (bytes "inity") r with _ | r'
      · exact hmem
      · exact dropWord_colon (by simp [bytes]) hmem hd
    exact if_neg (dropWhile_space_colon hmem')
  · split
    · rename_i r hr
      exact if_neg (dropWhile_space_colon (dropWord_colon (by simp [bytes]) h hr))
    · rfl

/-- A text with a colon is no number. -/
theorem tonumber_colon {s : Bytes} (h : (58 : UInt8) ∈ s) (hz : ∀ b ∈ s, b ≠ 0) : tonumber s = none := by
  unfold tonumber
  rw [takeWhile_nonzero s hz]
  dsimp only
  split
  · exact scanRegular_colon false h
  · have hspace := mem_dropWhile h (p := isSpace) (by decide)
    generalize s.dropWhile isSpace = t at hspace
    have hmem := mem_tail_colon (c := t.headD 0 == 43 || t.headD 0 == 45) hspace (by
      intro hc he
      rw [List.headD_eq_head?_getD, he] at hc
      revert hc
      decide)
    generalize (if (t.headD 0 == 43 || t.headD 0 == 45) = true then t.tail else t) = u at hmem
    split
    · exact scanWord_colon _ hmem
    · exact scanRegular_colon _ hmem

/-! ## Decimal text -/

/-- Below fourteen digits `%.14g` prints the integer itself. -/
theorem text_int (n : Int) (h : n.natAbs < 10 ^ 14) : (Number.int n).text = decimalInt n := by
  simp only [Number.text, h, ite_true]

theorem text_nat (n : Nat) (h : n < 10 ^ 14) : (Number.int n).text = decimal n := by
  rw [text_int _ (by simpa using h)]
  simp [decimalInt, show ¬ ((n : Int) < 0) by omega]

/-- Above fourteen digits `%.14g` writes an exponent. -/
theorem mem_g14_exponent (neg : Bool) {p : Nat} (h : 10 ^ 14 ≤ p) : 101 ∈ g14 neg p 1 := by
  have hp : p ≠ 0 := by omega
  have hlen : 14 < (decimal p).length := (lt_decimal_length hp 14).2 h
  have hone : (decimal 1).length = 1 := decimal_length_small (by norm_num)
  obtain ⟨k, hk⟩ : ∃ k : Nat, (decimal p).length = k + 1 := ⟨_, (Nat.succ_pred (by omega)).symm⟩
  have hx0 : ((decimal p).length : Int) - (decimal 1).length = k := by omega
  have hlead : 1 * 10 ^ (k : Int).toNat ≤ p * 10 ^ (-(k : Int)).toNat := by
    have hneg : (-(k : Int)).toNat = 0 := by omega
    rw [Int.toNat_natCast, hneg, Nat.one_mul, Nat.pow_zero, Nat.mul_one]
    exact (lt_decimal_length hp k).1 (by omega)
  unfold g14
  simp only [hx0, hlead, ite_true]
  have hbig : ∀ c : Prop, [Decidable c] → ¬ (-4 ≤ (if c then (k : Int) + 1 else k) ∧
      (if c then (k : Int) + 1 else k) ≤ 13) := by
    intro c _
    split <;> omega
  rw [if_neg (hbig _)]
  split <;> simp

/-- No letter stands in decimal text. -/
theorem decimalInt_letter (n : Int) {b : UInt8} (hm : b ≠ 45) (hd : isDigit b = false) : b ∉ decimalInt n := by
  intro h
  have hmem : b ∈ decimal n.natAbs := by
    unfold decimalInt at h
    split at h
    · exact (List.mem_cons.1 h).resolve_left hm
    · exact h
  exact absurd (decimal_isDigit _ _ hmem) (by simp [hd])

/-- The text of an integral number is the decimal text of another integer only if it is short. -/
theorem text_eq_decimalInt {m n : Int} (h : (Number.int m).text = decimalInt n) : m = n ∧ n.natAbs < 10 ^ 14 := by
  by_cases hm : m.natAbs < 10 ^ 14
  · rw [text_int m hm] at h
    have := decimalInt_injective h
    exact ⟨this, this ▸ hm⟩
  · have he := mem_g14_exponent (decide (m < 0)) (Nat.le_of_not_lt hm)
    rw [Number.text, if_neg hm] at h
    exact absurd (h ▸ he) (decimalInt_letter n (by decide) (by decide))

/-- The double nearest to an integer is an integer, or too large for a double. -/
theorem ofRatio_integral (neg : Bool) (p : Nat) :
    (∃ m, ofRatio neg p 1 = .int m) ∨ ofRatio neg p 1 = .inf neg := by
  by_cases h : p ≤ 2 ^ 53
  · exact .inl ⟨_, ofRatio_int neg p h⟩
  · have hlog : 53 ≤ Nat.log2 p := (Nat.le_log2 (by omega)).2 (by omega)
    have hone : Nat.log2 1 = 0 := by decide
    have hshort : ¬ (p % 1 = 0 ∧ p / 1 ≤ 2 ^ 53) := by
      rw [Nat.div_one]
      exact fun hs => h hs.2
    rw [ofRatio, if_neg hshort]
    unfold roundRatio
    dsimp only
    have he : ∀ c : Prop, [Decidable c] → 0 ≤ max (if c then (Nat.log2 p : Int) - Nat.log2 1
        else Nat.log2 p - Nat.log2 1 - 1) (-1022) - 52 := by
      intro c _
      split <;> omega
    have hend : ∀ (c : Prop) [Decidable c] (m : Int), (∃ k, (if c then Number.inf neg else .int m) = .int k) ∨
        (if c then Number.inf neg else .int m) = .inf neg := by
      intro c _ m
      split
      · exact .inr rfl
      · exact .inl ⟨m, rfl⟩
    rw [if_pos (he _)]
    exact hend _ _

end NgProxy.Lua
