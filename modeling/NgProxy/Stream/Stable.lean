/-
`ngx_stream_lua_redis_parse` knows from the bytes of a reply where it ends: it returns the same whatever
follows the reply, and nothing before all of it is there. The lengths of the strings are what they seem
whenever it returns: one that has wrapped around sends the parser outside the buffer, and there it faults,
since LuaJIT keeps its strings in the lowest 2 GiB, or the length cannot be pushed.
-/
import NgProxy.Lib.Delimited
import NgProxy.Stream.Reach

namespace NgProxy.Stream

open Lua Memory Text

namespace Walk

open Scan

/-- The length taken from a header has not wrapped around, nor does the sum it is checked with. -/
def Sized : Access Header → Prop
  | .note h => 0 ≤ h.size ∧ h.size < 2 ^ 63 - 2
  | _ => True

/-- `lua_pushlstring` takes the length as a `size_t` and raises an error from `LJ_MAX_STR` on. -/
def Pushable : Access Header → Prop
  | .copy _ len => 0 ≤ len ∧ len < 0x7fffff00
  | _ => True

def Sound (a : Access Header) : Prop := Sized a ∧ Pushable a

theorem sound_read (p : Int) : Sound (.read p) := ⟨trivial, trivial⟩

variable {mem : Mem} {src last : Int}

/-! ## Loops -/

theorem findCrlf_unfold {p : Int} (hp : p ≤ last) (seenCr : Bool) :
    findCrlf last (last - p).toNat p seenCr =
      if last ≤ p then pure none
      else Scan.read p >>= fun c =>
        if c = 13 then findCrlf last (last - (p + 1)).toNat (p + 1) true
        else if seenCr ∧ c = 10 then pure (some p)
        else findCrlf last (last - (p + 1)).toNat (p + 1) false := by
  by_cases hend : last ≤ p
  · rw [if_pos hend, show (last - p).toNat = 0 by omega]
    rfl
  · rw [if_neg hend, show (last - p).toNat = (last - (p + 1)).toNat + 1 by omega, findCrlf, if_neg (by omega)]

theorem findCrlf_delimited {n : Nat} {p q : Int} {seenCr : Bool} (h₀ : 0 ≤ p) (hp : p ≤ last)
    (h : Stream.findCrlf mem last n p seenCr = some q) :
    Delimited Sound (· = none) (fun l => findCrlf l (l - p).toNat p seenCr) mem p (q + 1) (some q) := by
  -- the induction is on the fuel of the run that found the line end; each buffer brings its own
  induction n generalizing p seenCr with
  | zero => cases h
  | succ n ih =>
    have hq := (findCrlf_some hp h).1
    refine .congr (fun l hl => findCrlf_unfold hl seenCr) (.read (sound_read p) rfl h₀ (by omega) ?_)
    unfold Stream.findCrlf at h
    split at h
    · cases h
    · split at h
      · rename_i hcr
        simp only [if_pos hcr]
        exact ih (by omega) (by omega) h
      · rename_i hcr
        simp only [if_neg hcr]
        split at h
        · rename_i hlf
          cases h
          simp only [if_pos hlf]
          exact .pure
        · rename_i hlf
          simp only [if_neg hlf]
          exact ih (by omega) (by omega) h

theorem toCr_unfold {σ : Type} (step : σ → UInt8 → Option σ) (p : Int) (x : σ) :
    toCr last step (last - p).toNat p x =
      if last ≤ p then pure none
      else Scan.read p >>= fun c =>
        if c = 13 then pure (some (p, x))
        else (step x c).elim (pure none) fun x => toCr last step (last - (p + 1)).toNat (p + 1) x := by
  by_cases hend : last ≤ p
  · rw [if_pos hend, show (last - p).toNat = 0 by omega]
    rfl
  · rw [if_neg hend, show (last - p).toNat = (last - (p + 1)).toNat + 1 by omega, toCr, if_neg hend]
    refine bind_congr fun c => ?_
    cases step x c <;> rfl

theorem toCr_delimited {σ : Type} {step : σ → UInt8 → Option σ} {n : Nat} {p q : Int} {x y : σ} (h₀ : 0 ≤ p)
    (h : (toCr last step n p x).value mem = some (q, y)) :
    Delimited Sound (· = none) (fun l => toCr l step (l - p).toNat p x) mem p (q + 1) (some (q, y)) := by
  induction n generalizing p x with
  | zero => cases h
  | succ n ih =>
    have hq := (toCr_some (I := fun _ => True) (fun _ _ _ _ _ => trivial) trivial h).1
    refine .congr (fun l _ => toCr_unfold step p x) (.read (sound_read p) rfl h₀ (by omega) ?_)
    rw [toCr_succ_value] at h
    split at h
    · cases h
    · split at h
      · rename_i hcr
        cases h
        simp only [if_pos hcr]
        exact .pure
      · rename_i hcr
        obtain ⟨z, hz, h⟩ := Option.bind_eq_some_iff.1 h
        simp only [if_neg hcr, hz, Option.elim_some]
        exact ih (by omega) h

theorem crAfter_delimited {ok : UInt8 → Bool} {n : Nat} {p q : Int} (h₀ : 0 ≤ p)
    (h : (crAfter last ok n p).value mem = some q) :
    Delimited Sound (· = none) (fun l => crAfter l ok (l - p).toNat p) mem p (q + 1) (some q) := by
  obtain ⟨⟨q, u⟩, hr, rfl⟩ := Option.map_eq_some_iff.1 h
  refine .bind (toCr_delimited h₀ hr) le_rfl .pure ?_
  rintro l r rfl
  exact ⟨none, rfl, rfl⟩

/-! ## Slices -/

/-- The slice is nil or a part of the buffer, and it is found from the bytes before its end alone. -/
structure Sliced (f : Int → Walk Slice) (mem : Mem) (src last : Int) (d : Slice) : Prop where
  delimited : Delimited Sound (·.2 = -2) f mem src (sliceStop d) d
  start : 0 ≤ d.1 ∧ src ≤ d.1
  length : d.2 = -1 ∨ 0 ≤ d.2
  inside : sliceStop d ≤ last

theorem Sliced.lt_stop {f : Int → Walk Slice} {d : Slice} (h : Sliced f mem src last d) : src < sliceStop d := by
  have := h.start.2
  unfold sliceStop
  rcases h.length with hnil | hlen
  · rw [if_pos hnil]
    omega
  · split <;> omega

theorem Sliced.read {k : Int → UInt8 → Walk Slice} {d : Slice} (h₀ : 0 ≤ src)
    (h : Sliced (fun l => k l (mem src)) mem (src + 1) last d) :
    Sliced (fun l => if l ≤ src then pure invalid else Scan.read src >>= k l) mem src last d where
  delimited := .read (sound_read src) rfl h₀ ((Int.lt_succ src).trans h.lt_stop) h.delimited
  start := ⟨h.start.1, (Int.le_of_lt (Int.lt_succ src)).trans h.start.2⟩
  length := h.length
  inside := h.inside

theorem parseLine_sliced (h₀ : 0 ≤ src) (hsrc : src ≤ last) (hlast : last < 2 ^ 31)
    (hok : ((parseLine last src).value mem).2 ≠ -2) :
    Sliced (fun l => parseLine l src) mem src last ((parseLine last src).value mem) := by
  rw [parseLine_value] at hok ⊢
  unfold Stream.parseLine at hok ⊢
  cases hq : Stream.findCrlf mem last (last - src).toNat src false with
  | none =>
    rw [hq] at hok
    exact absurd rfl hok
  | some q =>
    obtain ⟨-, hlt, hnew⟩ := findCrlf_some hsrc hq
    have hnew := hnew rfl
    have hlen : int32 (q - src - 1) = q - src - 1 := int32_eq (by omega) (by omega)
    have hstop : sliceStop (src, int32 (q - src - 1)) = q + 1 := by
      rw [hlen, sliceStop, if_neg (by dsimp only; omega)]
      dsimp only
      omega
    dsimp only
    refine ⟨?_, ⟨h₀, le_rfl⟩, .inr (by dsimp only; omega), by omega⟩
    rw [hstop]
    refine .bind (findCrlf_delimited h₀ hsrc hq) le_rfl .pure ?_
    rintro l r rfl
    exact ⟨invalid, rfl, rfl⟩

theorem nullBulk_sliced (h₀ : 0 ≤ src) (hok : ((nullBulk last src).value mem).2 ≠ -2) :
    Sliced (fun l => nullBulk l src) mem src last ((nullBulk last src).value mem) := by
  rw [nullBulk_value] at hok ⊢
  unfold Stream.nullBulk at hok ⊢
  cases hq : Stream.skipDigits mem last (last - src).toNat src with
  | none =>
    rw [hq] at hok
    exact absurd rfl hok
  | some q =>
    rw [hq] at hok
    rw [← skipDigits_value] at hq
    obtain ⟨hle, -⟩ := crAfter_some hq
    dsimp only at hok ⊢
    split at hok
    · exact absurd rfl hok
    · rename_i hroom
      split at hok
      · exact absurd rfl hok
      · rename_i hlf
        rw [if_neg hroom, if_neg hlf]
        have hstop : sliceStop (q, -1) = q + 2 := if_pos rfl
        refine ⟨?_, ⟨by dsimp only; omega, hle⟩, .inl rfl, by rw [hstop]; omega⟩
        rw [hstop]
        refine .bind (crAfter_delimited h₀ hq) (by omega) ?_ ?_
        · -- the line feed behind the CR
          refine .congr (g := fun l => if l ≤ q + 1 then pure invalid
            else Scan.read (q + 1) >>= fun c => if c ≠ 10 then pure invalid else pure (q, -1)) ?_ ?_
          · intro l _
            exact if_congr (by omega) rfl rfl
          · refine .read (sound_read _) rfl (by omega) (by omega) ?_
            simp only [if_neg hlf]
            exact Delimited.pure.mono (by omega)
        · rintro l r rfl
          exact ⟨invalid, rfl, rfl⟩

/-- What has been checked when the data of a string is accepted. -/
theorem bulkData_accepted {p size : Int} (hok : (Stream.bulkData mem last p size).2 ≠ -2) :
    p + 1 < last ∧ mem (p + 1) = 10 ∧ int64 (size + 2) ≤ last - (p + 2) ∧ mem (p + 2 + size) = 13 ∧
      mem (p + 2 + size + 1) = 10 ∧ Stream.bulkData mem last p size = (p + 2, int32 size) := by
  unfold Stream.bulkData at hok ⊢
  split_ifs at hok ⊢ with h₁ h₂ h₃ h₄ h₅
  · exact absurd rfl hok
  · exact absurd rfl hok
  · exact absurd rfl hok
  · exact absurd rfl hok
  · exact absurd rfl hok
  · exact ⟨not_le.1 h₁, not_not.1 h₂, not_lt.1 h₃, not_not.1 h₄, not_not.1 h₅, rfl⟩

theorem dataEnd_all_sound (q size : Int) : All Sound (dataEnd q size) mem :=
  dataEnd_all.2 ⟨sound_read _, fun _ => sound_read _⟩

/-- The length that is noted. -/
theorem bulkData_noted {p size : Int} {P : Access Header → Prop} (hroom : p + 1 < last) (hlf : mem (p + 1) = 10)
    (h : All P (bulkData last p size) mem) : P (.note ⟨p + 2, size⟩) := by
  unfold bulkData at h
  rw [if_neg (not_le.2 hroom), all_read_bind, if_neg (not_not.2 hlf)] at h
  exact all_note.1 (all_bind.1 h.2).1

theorem bulkData_sliced {p size : Int} (h₀ : 0 ≤ p) (hlast : last < 2 ^ 31) (hs : All Sound (bulkData last p size) mem)
    (hok : ((bulkData last p size).value mem).2 ≠ -2) :
    Sliced (fun l => bulkData l p size) mem (p + 1) last ((bulkData last p size).value mem) := by
  rw [bulkData_value] at hok ⊢
  obtain ⟨hroom, hlf, hfit, hcr, hlf', hval⟩ := bulkData_accepted hok
  have hnote := bulkData_noted hroom hlf hs
  obtain ⟨hpos, htop⟩ : 0 ≤ size ∧ size < 2 ^ 63 - 2 := hnote.1
  have hsum : int64 (size + 2) = size + 2 := int64_eq (by omega) (by omega)
  rw [hsum] at hfit
  have hsize : int32 size = size := int32_eq (by omega) (by omega)
  rw [hsize] at hval
  have hstop : sliceStop (p + 2, size) = p + 2 + size + 2 := if_neg (by dsimp only; omega)
  rw [hval]
  refine ⟨?_, ⟨by dsimp only; omega, by dsimp only; omega⟩, .inr hpos, by rw [hstop]; omega⟩
  rw [hstop]
  refine .read (sound_read _) rfl (by omega) (by omega) ?_
  simp only [hlf, ne_eq, not_true_eq_false, if_false, hsum]
  refine .note hnote ?_
  refine .congr (g := fun l => if l < p + 2 + size + 2 then pure invalid else dataEnd (p + 2) size) ?_ ?_
  · intro l _
    exact if_congr (by omega) rfl rfl
  · -- the line end behind the data is in the buffer
    refine .guard rfl fun l mem' hl hsame => ⟨dataEnd_all_sound _ _, ?_⟩
    rw [dataEnd_value, hsame _ (by omega) (by omega) (by omega), hsame _ (by omega) (by omega) (by omega),
      if_pos ⟨hcr, hlf'⟩, hsize]

theorem parseBulk_sliced (h₀ : 0 ≤ src) (hlast : last < 2 ^ 31) (hs : All Sound (parseBulk last src) mem)
    (hok : ((parseBulk last src).value mem).2 ≠ -2) :
    Sliced (fun l => parseBulk l src) mem src last ((parseBulk last src).value mem) := by
  unfold parseBulk at hs hok ⊢
  by_cases hend : last ≤ src
  · rw [if_pos hend] at hok
    exact absurd rfl hok
  · rw [if_neg hend] at hs hok ⊢
    rw [value_read_bind] at hok ⊢
    obtain ⟨-, hs⟩ := all_read_bind.1 hs
    refine .read h₀ ?_
    by_cases hneg : mem src = 45
    · simp only [if_pos hneg] at hok ⊢
      exact nullBulk_sliced (by omega) hok
    · -- the byte that was no sign is read again as the first digit
      simp only [if_neg hneg] at hs hok ⊢
      rw [value_bind] at hok ⊢
      rw [all_bind] at hs
      cases hr : (readSize last (last - src).toNat src 0).value mem with
      | none =>
        rw [hr] at hok
        exact absurd rfl hok
      | some r =>
        rw [hr] at hs hok
        obtain ⟨hp, -⟩ := readSize_some hr
        have hdata := bulkData_sliced (by omega) hlast hs.2 hok
        have hstart : src + 1 ≤ r.1 + 1 := by omega
        refine ⟨?_, ⟨hdata.start.1, hstart.trans hdata.start.2⟩, hdata.length, hdata.inside⟩
        refine .bind ((toCr_delimited h₀ hr).mono (by omega)) (Int.le_of_lt hdata.lt_stop) hdata.delimited ?_
        rintro l r rfl
        exact ⟨invalid, rfl, rfl⟩

theorem parseElement_sliced (h₀ : 0 ≤ src) (hlast : last < 2 ^ 31) (hs : All Sound (parseElement last src) mem)
    (hok : ((parseElement last src).value mem).2 ≠ -2) :
    Sliced (fun l => parseElement l src) mem src last ((parseElement last src).value mem) := by
  unfold parseElement at hs hok ⊢
  by_cases hend : last ≤ src
  · rw [if_pos hend] at hok
    exact absurd rfl hok
  · rw [if_neg hend] at hs hok ⊢
    rw [value_read_bind] at hok ⊢
    obtain ⟨-, hs⟩ := all_read_bind.1 hs
    refine .read h₀ ?_
    by_cases hline : mem src = 43 ∨ mem src = 45 ∨ mem src = 58
    · simp only [if_pos hline] at hok ⊢
      exact parseLine_sliced (by omega) (by omega) hlast hok
    · simp only [if_neg hline] at hs hok ⊢
      by_cases hbulk : mem src = 36
      · simp only [if_pos hbulk] at hs hok ⊢
        exact parseBulk_sliced (by omega) hlast hs hok
      · rw [if_neg hbulk] at hok
        exact absurd rfl hok

/-! ## Values -/

/-- What is pushed for a slice is in the bytes before its end. -/
theorem sliceValue_delimited {d : Slice} (hd : 0 ≤ d.1) (hs : All Sound (sliceValue d) mem) :
    Delimited Sound (fun _ => False) (fun _ => sliceValue d) mem (sliceStop d) (sliceStop d)
      ((sliceValue d).value mem) := by
  refine .settled fun l mem' hl hsame => ?_
  unfold sliceValue at hs ⊢
  unfold sliceStop at hl hsame
  split at hs
  · rename_i hnil
    rw [if_pos hnil]
    exact ⟨all_pure _, rfl⟩
  · rename_i hnil
    rw [if_neg hnil] at hl hsame ⊢
    obtain ⟨hcopy, -⟩ := all_bind.1 hs
    rw [all_copy] at hcopy
    obtain ⟨hpos, -⟩ : 0 ≤ d.2 ∧ d.2 < 0x7fffff00 := hcopy.2
    refine ⟨all_bind.2 ⟨all_copy.2 hcopy, all_pure _⟩, ?_⟩
    simp only [value_bind, value_copy, value_pure]
    rw [hsame.slice_eq hd (by omega) (by omega)]

/-- A slice that is pushed unless it is refused, and what is done behind it. -/
theorem Sliced.push {α : Type} {refused : α → Prop} {x : Int → Walk Slice} {y : α} {k : Int → Value × Int → Walk α}
    {stop : Int} {a : α} {d : Slice} (hx : Sliced x mem src last d) (hne : d.2 ≠ -2) (hs : All Sound (sliceValue d) mem)
    (hy : refused y) (hle : sliceStop d ≤ stop)
    (hk : Delimited Sound refused (fun l => k l ((sliceValue d).value mem)) mem (sliceStop d) stop a) :
    Delimited Sound refused (fun l => x l >>= fun d => if d.2 = -2 then pure y else sliceValue d >>= k l) mem src
      stop a := by
  refine .bind hx.delimited hle ?_ fun l d hd => ⟨y, if_pos hd, hy⟩
  simp only [if_neg hne]
  exact .bind (sliceValue_delimited hx.start.1 hs) hle hk fun _ _ h => h.elim

/-- The elements, by induction on how many there are. -/
theorem elements_delimited (hlast : last < 2 ^ 31) {n : Nat} {p : Int} {r : List Value × Int} (h₀ : 0 ≤ p)
    (hp : p ≤ last) (hs : All Sound (elements last n p) mem) (hr : (elements last n p).value mem = some r) :
    p ≤ r.2 ∧ r.2 ≤ last ∧ Delimited Sound (· = none) (fun l => elements l n p) mem p r.2 (some r) := by
  induction n generalizing p r with
  | zero =>
    cases hr
    exact ⟨le_rfl, hp, .pure⟩
  | succ n ih =>
    unfold elements at hs hr
    rw [all_bind] at hs
    rw [value_bind] at hr
    by_cases hbad : ((parseElement last p).value mem).2 = -2
    · rw [if_pos hbad] at hr
      cases hr
    · rw [if_neg hbad, all_bind, all_bind] at hs
      rw [if_neg hbad, value_bind, value_bind, value_pure] at hr
      obtain ⟨hs₁, hs₂, hs₃, -⟩ := hs
      obtain ⟨t, ht, rfl⟩ := Option.map_eq_some_iff.1 hr
      have hd := parseElement_sliced h₀ hlast hs₁ hbad
      have hlt := hd.lt_stop
      have hin := hd.inside
      rw [sliceValue_stop] at hs₃ ht
      -- the next element starts behind the line end of this one
      obtain ⟨hle, hend, hrest⟩ := ih (by omega) hin hs₃ ht
      refine ⟨by dsimp only; omega, hend, hd.push hbad hs₂ rfl hle ?_⟩
      simp only [sliceValue_stop]
      refine .bind hrest le_rfl .pure ?_
      rintro l r rfl
      exact ⟨none, rfl, rfl⟩

theorem readCount_unfold (p count : Int) :
    readCount last (last - p).toNat p count =
      if last ≤ p then pure none
      else Scan.read p >>= fun c =>
        if c = 13 then pure (some (p, count))
        else if c = 45 then
          if last ≤ p + 1 then pure none
          else Scan.read (p + 1) >>= fun d =>
            if isDigit d then skipLine last (last - (p + 1)).toNat (p + 1) >>= fun q => pure (q.map fun q => (q, -1))
            else pure none
        else if isDigit c then
          readCount last (last - (p + 1)).toNat (p + 1) (int32 (int32 (count * 10) + digitVal c))
        else pure none := by
  by_cases hend : last ≤ p
  · rw [if_pos hend, show (last - p).toNat = 0 by omega]
    rfl
  · rw [if_neg hend, show (last - p).toNat = (last - (p + 1)).toNat + 1 by omega, readCount, if_neg hend]

theorem readCount_delimited {n : Nat} {p count : Int} {r : Int × Int} (h₀ : 0 ≤ p)
    (h : (readCount last n p count).value mem = some r) :
    Delimited Sound (· = none) (fun l => readCount l (l - p).toNat p count) mem p (r.1 + 1) (some r) := by
  induction n generalizing p count with
  | zero => cases h
  | succ n ih =>
    have hq := (readCount_some h).1
    refine .congr (fun l _ => readCount_unfold p count) (.read (sound_read p) rfl h₀ (by omega) ?_)
    rw [readCount_value, Stream.readCount] at h
    split at h
    · cases h
    · split at h
      · rename_i hcr
        cases h
        simp only [if_pos hcr]
        exact .pure
      · rename_i hcr
        simp only [if_neg hcr]
        split at h
        · rename_i hneg
          -- a dash: one digit is asked for, and then only the CR
          simp only [if_pos hneg]
          split at h
          · cases h
          · split at h
            · rename_i hdigit
              obtain ⟨q, hskip, rfl⟩ := Option.map_eq_some_iff.1 h
              rw [← skipLine_value] at hskip
              have hle := (crAfter_some hskip).1
              refine .read (sound_read _) rfl (by omega) (by dsimp only; omega) ?_
              rw [digitAt] at hdigit
              simp only [if_pos hdigit]
              refine .bind ((crAfter_delimited (by omega) hskip).mono (by omega)) le_rfl .pure ?_
              rintro l r rfl
              exact ⟨none, rfl, rfl⟩
            · cases h
        · rename_i hneg
          simp only [if_neg hneg]
          split at h
          · rename_i hdigit
            rw [digitAt] at hdigit
            rw [← readCount_value] at h
            simp only [if_pos hdigit]
            exact ih (by omega) h
          · cases h

theorem arrayBody_delimited {p count : Int} (h₀ : 0 ≤ p) (hlast : last < 2 ^ 31) {v : Value × Int}
    (hs : All Sound (arrayBody last p count) mem) (hv : (arrayBody last p count).value mem = .ok (some v)) :
    p + 2 ≤ v.2 ∧ v.2 ≤ last ∧
      Delimited Sound (· = .ok none) (fun l => arrayBody l p count) mem (p + 1) v.2 (.ok (some v)) := by
  unfold arrayBody at hs hv ⊢
  by_cases hroom : last ≤ p + 1
  · rw [if_pos hroom] at hv
    cases hv
  · rw [if_neg hroom, all_read_bind] at hs
    rw [if_neg hroom, value_read_bind] at hv
    by_cases hlf : mem (p + 1) = 10
    · rw [if_neg (not_not.2 hlf)] at hs hv
      by_cases hnil : count = -1
      · rw [if_pos hnil] at hv
        cases hv
        refine ⟨le_rfl, by dsimp only; omega, .read (sound_read _) rfl (by omega) (by dsimp only; omega) ?_⟩
        simp only [if_neg (not_not.2 hlf), if_pos hnil]
        exact Delimited.pure.mono (by omega)
      · by_cases hmax : (maxArr : Int) < count
        · rw [if_neg hnil, if_pos hmax] at hv
          cases hv
        · rw [if_neg hnil, if_neg hmax, all_bind] at hs
          rw [if_neg hnil, if_neg hmax, value_bind] at hv
          obtain ⟨t, ht, rfl⟩ := Option.map_eq_some_iff.1 (Except.ok.inj hv)
          obtain ⟨h₁, h₂, helems⟩ := elements_delimited hlast (by omega) (by omega) hs.2.1 ht
          refine ⟨h₁, h₂, .read (sound_read _) rfl (by omega) (by dsimp only; omega) ?_⟩
          simp only [if_neg (not_not.2 hlf), if_neg hnil, if_neg hmax]
          refine .bind (helems.mono (by omega)) le_rfl .pure ?_
          rintro l r rfl
          exact ⟨.ok none, rfl, rfl⟩
    · rw [if_pos hlf] at hv
      cases hv

theorem parseMultiBulk_delimited (h₀ : 0 ≤ src) (hlast : last < 2 ^ 31) {v : Value × Int}
    (hs : All Sound (parseMultiBulk last src) mem) (hv : (parseMultiBulk last src).value mem = .ok (some v)) :
    src < v.2 ∧ v.2 ≤ last ∧
      Delimited Sound (· = .ok none) (fun l => parseMultiBulk l src) mem src v.2 (.ok (some v)) := by
  unfold parseMultiBulk at hs hv ⊢
  by_cases hend : last ≤ src
  · rw [if_pos hend] at hv
    cases hv
  · rw [if_neg hend, all_bind] at hs
    rw [if_neg hend, value_bind] at hv
    cases hr : (readCount last (last - src).toNat src 0).value mem with
    | none =>
      rw [hr] at hv
      cases hv
    | some r =>
      rw [hr] at hs hv
      have hle := (readCount_some hr).1
      obtain ⟨p, count⟩ := r
      obtain ⟨h₁, h₂, hbody⟩ := arrayBody_delimited (h₀.trans hle) hlast hs.2 hv
      dsimp only at hle
      refine ⟨by omega, h₂, .nonempty rfl (by omega) ?_⟩
      refine .bind (readCount_delimited h₀ hr) (by omega) hbody ?_
      rintro l r rfl
      exact ⟨.ok none, rfl, rfl⟩

/-! ## Replies -/

/-- A bad reply. -/
def Bad (x : Except LuaError Parsed) : Prop := ∃ r, x = .ok r ∧ r.type = .bad

/-- The reply is in the buffer, and it is found from its own bytes alone. -/
structure Ended (f : Int → Walk (Except LuaError Parsed)) (mem : Mem) (src last : Int) (r : Parsed) : Prop where
  delimited : Delimited Sound Bad f mem src r.src (.ok r)
  start : src < r.src
  inside : r.src ≤ last

theorem lineReply_ended (h₀ : 0 ≤ src) (hsrc : src < last) (hlast : last < 2 ^ 31) {type : ReplyType}
    {value : Bytes → Value} {message : String} (hs : All Sound (lineReply last src type value message) mem)
    (hok : ((lineReply last src type value message).value mem).type ≠ .bad) :
    Ended (fun l => .ok <$> lineReply l src type value message) mem (src + 1) last
      ((lineReply last src type value message).value mem) := by
  have hnext : src + 1 ≤ last := by omega
  have hcases := parseLine_cases mem hnext (by omega) hlast
  unfold lineReply at hs hok ⊢
  rw [all_bind] at hs
  rw [value_bind] at hok ⊢
  rw [← parseLine_value] at hcases
  by_cases hbad : ((parseLine last (src + 1)).value mem).2 = -2
  · rw [if_pos hbad] at hok
    exact absurd rfl hok
  · have hd := parseLine_sliced (by omega) hnext hlast hbad
    obtain ⟨hstart, hpos, hend⟩ := hcases.resolve_left hbad
    rw [if_neg hbad] at hs ⊢
    rw [all_bind, all_copy] at hs
    generalize (parseLine last (src + 1)).value mem = d at hbad hd hstart hpos hend hs ⊢
    have hstop : sliceStop d = src + int32 (d.2 + 1) + 2 := by
      rw [sliceStop, if_neg (by omega), hstart, int32_eq (by omega) (by omega)]
      omega
    have hin := hd.inside
    have hlt := hd.lt_stop
    rw [hstop] at hin hlt
    refine ⟨.map (fun r => r.type = .bad) ?_ fun r hbad => ⟨r, rfl, hbad⟩, hlt, hin⟩
    refine .bind hd.delimited (by rw [hstop]; exact le_rfl) ?_ fun l d hd => ⟨_, if_pos hd, rfl⟩
    simp only [if_neg hbad]
    rw [hstop]
    refine .settled fun l mem' hl hsame => ⟨all_bind.2 ⟨all_copy.2 hs.2.1, all_pure _⟩, ?_⟩
    rw [← hstop, sliceStop, if_neg (by omega)] at hl hsame
    simp only [value_bind, value_copy, value_pure]
    rw [hsame.slice_eq (by omega) (by omega) (by omega)]

theorem bulkReply_ended (h₀ : 0 ≤ src) (hlast : last < 2 ^ 31) (hs : All Sound (bulkReply last src) mem)
    (hok : ((bulkReply last src).value mem).type ≠ .bad) :
    Ended (fun l => .ok <$> bulkReply l src) mem (src + 1) last ((bulkReply last src).value mem) := by
  unfold bulkReply at hs hok ⊢
  rw [all_bind] at hs
  rw [value_bind] at hok ⊢
  by_cases hbad : ((parseBulk last (src + 1)).value mem).2 = -2
  · rw [if_pos hbad] at hok
    exact absurd rfl hok
  · have hd := parseBulk_sliced (by omega) hlast hs.1 hbad
    rw [if_neg hbad] at hs ⊢
    rw [all_bind] at hs
    have hend : ((sliceValue ((parseBulk last (src + 1)).value mem)).value mem).2 = _ := sliceValue_stop _
    refine ⟨.map (fun r => r.type = .bad) ?_ fun r hbad => ⟨r, rfl, hbad⟩,
      hd.lt_stop.trans_eq hend.symm, hend.trans_le hd.inside⟩
    exact hd.push hbad hs.2.1 rfl hend.ge (Delimited.pure.mono hend.le)

theorem multiBulkReply_ended (h₀ : 0 ≤ src) (hlast : last < 2 ^ 31) (hs : All Sound (multiBulkReply last src) mem)
    {r : Parsed} (hval : (multiBulkReply last src).value mem = .ok r) (hok : r.type ≠ .bad) :
    Ended (fun l => multiBulkReply l src) mem (src + 1) last r := by
  unfold multiBulkReply at hs hval ⊢
  rw [all_bind] at hs
  rw [value_bind, value_pure] at hval
  rcases hv : (parseMultiBulk last (src + 1)).value mem with e | _ | v
  all_goals
    rw [hv] at hval
    cases hval
  · exact absurd rfl hok
  · obtain ⟨h₁, h₂, hbody⟩ := parseMultiBulk_delimited (by omega) hlast hs.1 hv
    refine ⟨.bind hbody le_rfl .pure ?_, h₁, h₂⟩
    rintro l r rfl
    exact ⟨_, rfl, _, rfl, rfl⟩

theorem Ended.read {k : Int → UInt8 → Walk (Except LuaError Parsed)} {r bad : Parsed} (h₀ : 0 ≤ src)
    (hbad : bad.type = .bad) (h : Ended (fun l => k l (mem src)) mem (src + 1) last r) :
    Ended (fun l => if l = src then pure (.ok bad) else Scan.read src >>= k l) mem src last r := by
  have hstart := h.start
  refine ⟨?_, by omega, h.inside⟩
  refine .congr (g := fun l => if l ≤ src then pure (.ok bad) else Scan.read src >>= k l) ?_ ?_
  · intro l hl
    exact if_congr (by omega) rfl rfl
  · exact .read (sound_read src) ⟨bad, rfl, hbad⟩ h₀ (by omega) h.delimited

theorem redisParse_ended (h₀ : 0 ≤ src) (hsrc : src ≤ last) (hlast : last < 2 ^ 31)
    (hs : All Sound (redisParse last src) mem) {r : Parsed} (hval : (redisParse last src).value mem = .ok r)
    (hok : r.type ≠ .bad) : Ended (fun l => redisParse l src) mem src last r := by
  unfold redisParse at hs hval ⊢
  by_cases hend : last = src
  · rw [if_pos hend] at hval
    cases hval
    exact absurd rfl hok
  · have hlt : src < last := by omega
    rw [if_neg hend] at hs hval
    rw [value_read_bind] at hval
    obtain ⟨-, hs⟩ := all_read_bind.1 hs
    refine .read h₀ rfl ?_
    generalize mem src = c at hs hval ⊢
    have hline {type : ReplyType} {value : Bytes → Value} {message : String}
        (hs : All Sound ((.ok : Parsed → Except LuaError Parsed) <$> lineReply last src type value message) mem)
        (hval : Scan.value ((.ok : Parsed → Except LuaError Parsed) <$> lineReply last src type value message) mem =
          .ok r) :
        Ended (fun l => .ok <$> lineReply l src type value message) mem (src + 1) last r := by
      cases hval
      exact lineReply_ended h₀ hlt hlast (all_map.1 hs) hok
    by_cases hstatus : c = 43
    · simp only [if_pos hstatus] at hs hval ⊢
      exact hline hs hval
    · by_cases herror : c = 45
      · simp only [if_neg hstatus, if_pos herror] at hs hval ⊢
        exact hline hs hval
      · by_cases hint : c = 58
        · simp only [if_neg hstatus, if_neg herror, if_pos hint] at hs hval ⊢
          exact hline hs hval
        · by_cases hbulk : c = 36
          · simp only [if_neg hstatus, if_neg herror, if_neg hint, if_pos hbulk] at hs hval ⊢
            cases hval
            exact bulkReply_ended h₀ hlast (all_map.1 hs) hok
          · by_cases hmulti : c = 42
            · simp only [if_neg hstatus, if_neg herror, if_neg hint, if_neg hbulk, if_pos hmulti] at hs hval ⊢
              exact multiBulkReply_ended h₀ hlast hs hval hok
            · simp only [if_neg hstatus, if_neg herror, if_neg hint, if_neg hbulk, if_neg hmulti] at hval
              cases hval
              exact absurd rfl hok

/-! ## Lengths where no address is left -/

section Sized

/-- With the buffer at the address `a`: the byte is one of the process, and what is pushed is no longer than a
string can be. -/
def Served (a : Int) : Access Header → Prop
  | .read p => 0 ≤ a + p ∧ a + p < 2 ^ 47
  | .copy p len => Pushable (.copy p len)
  | .note _ => True

instance (a : Int) : DecidablePred (Served a)
  | .read _ => inferInstanceAs (Decidable (_ ∧ _))
  | .copy _ _ => inferInstanceAs (Decidable (_ ∧ _))
  | .note _ => inferInstanceAs (Decidable True)

variable {a : Int}

/-- A length that has wrapped around leads below the address 0, if the lower half of it can be pushed, or above
all addresses. -/
theorem bulkData_sized {p size : Int} (h₀ : 0 ≤ p) (ha : 0 ≤ a) (hlow : a + last ≤ 2 ^ 31)
    (hs : All (Served a) (bulkData last p size) mem) (hok : ((bulkData last p size).value mem).2 ≠ -2)
    (hlen : -1 ≤ ((bulkData last p size).value mem).2) : All Sized (bulkData last p size) mem := by
  rw [bulkData_value] at hok hlen
  obtain ⟨hroom, hlf, hfit, hcr, -, hval⟩ := bulkData_accepted hok
  unfold bulkData at hs ⊢
  rw [if_neg (not_le.2 hroom), all_read_bind, if_neg (not_not.2 hlf), all_bind, all_note] at hs ⊢
  have hsize : 0 ≤ size ∧ size < 2 ^ 63 - 2 := by
    have hread := hs.2.2
    rw [if_neg (not_lt.2 hfit), dataEnd_all] at hread
    obtain ⟨hbelow, habove⟩ : 0 ≤ a + (p + 2 + size) ∧ a + (p + 2 + size) < 2 ^ 47 := hread.1
    have hone : size ≠ -1 := by
      rintro rfl
      rw [show p + 2 + -1 = p + 1 by omega, hlf] at hcr
      exact absurd hcr (by decide)
    refine ⟨?_, by omega⟩
    by_contra hneg
    -- it is no less than the addresses before the data, so no bit of it was lost in `dst_len`
    rw [hval, int32_eq (by omega) (by omega)] at hlen
    dsimp only at hlen
    omega
  refine ⟨trivial, hsize, ?_⟩
  split
  · exact all_pure _
  · exact dataEnd_all.2 ⟨trivial, fun _ => trivial⟩

theorem nullBulk_sized {p : Int} : All Sized (nullBulk last p) mem := by
  refine all_bind.2 ⟨crAfter_reads _ fun _ _ _ => trivial, ?_⟩
  split
  · exact all_pure _
  · split
    · exact all_pure _
    · refine all_read_bind.2 ⟨trivial, ?_⟩
      split <;> exact all_pure _

theorem parseBulk_sized (h₀ : 0 ≤ src) (ha : 0 ≤ a) (hlow : a + last ≤ 2 ^ 31)
    (hs : All (Served a) (parseBulk last src) mem) (hok : ((parseBulk last src).value mem).2 ≠ -2)
    (hlen : -1 ≤ ((parseBulk last src).value mem).2) : All Sized (parseBulk last src) mem := by
  unfold parseBulk at hs hok hlen ⊢
  by_cases hend : last ≤ src
  · rw [if_pos hend]
    exact all_pure _
  · rw [if_neg hend] at hs hok hlen ⊢
    rw [value_read_bind] at hok hlen
    obtain ⟨-, hs⟩ := all_read_bind.1 hs
    refine all_read_bind.2 ⟨trivial, ?_⟩
    by_cases hneg : mem src = 45
    · rw [if_pos hneg]
      exact nullBulk_sized
    · rw [if_neg hneg, value_bind] at hok hlen
      rw [if_neg hneg, all_bind] at hs ⊢
      refine ⟨readSize_reads _ fun _ _ _ => trivial, ?_⟩
      cases hr : (readSize last (last - src).toNat src 0).value mem with
      | none => exact all_pure _
      | some r =>
        rw [hr] at hs hok hlen
        exact bulkData_sized (h₀.trans (readSize_some hr).1) ha hlow hs.2 hok hlen

theorem parseElement_sized (h₀ : 0 ≤ src) (ha : 0 ≤ a) (hlow : a + last ≤ 2 ^ 31)
    (hs : All (Served a) (parseElement last src) mem) (hok : ((parseElement last src).value mem).2 ≠ -2)
    (hlen : -1 ≤ ((parseElement last src).value mem).2) : All Sized (parseElement last src) mem := by
  unfold parseElement at hs hok hlen ⊢
  by_cases hend : last ≤ src
  · rw [if_pos hend]
    exact all_pure _
  · rw [if_neg hend] at hs hok hlen ⊢
    rw [value_read_bind] at hok hlen
    obtain ⟨-, hs⟩ := all_read_bind.1 hs
    refine all_read_bind.2 ⟨trivial, ?_⟩
    by_cases hline : mem src = 43 ∨ mem src = 45 ∨ mem src = 58
    · rw [if_pos hline]
      exact parseLine_reads (by omega) _ fun _ _ _ => trivial
    · rw [if_neg hline] at hs hok hlen ⊢
      by_cases hbulk : mem src = 36
      · rw [if_pos hbulk] at hs hok hlen ⊢
        exact parseBulk_sized (by omega) ha hlow hs hok hlen
      · rw [if_neg hbulk]
        exact all_pure _

theorem sliceValue_sized (d : Slice) : All Sized (sliceValue d) mem := by
  unfold sliceValue
  split
  · exact all_pure _
  · exact all_bind.2 ⟨all_copy.2 trivial, all_pure _⟩

/-- What can be pushed is nil or has a length. -/
theorem sliceValue_served {d : Slice} (h : All (Served a) (sliceValue d) mem) : -1 ≤ d.2 := by
  unfold sliceValue at h
  split at h
  · omega
  · have hcopy : 0 ≤ d.2 ∧ d.2 < 0x7fffff00 := all_copy.1 (all_bind.1 h).1
    omega

theorem all_sound {α : Type} {x : Walk α} (hsized : All Sized x mem) (hs : All (Served a) x mem) : All Sound x mem := by
  refine fun e he => ⟨hsized e he, ?_⟩
  have := hs e he
  cases e with
  | copy p len => exact this
  | _ => trivial

theorem elements_sized (ha : 0 ≤ a) (hlow : a + last ≤ 2 ^ 31) (hlast : last < 2 ^ 31) {n : Nat} {p : Int} (h₀ : 0 ≤ p)
    (hs : All (Served a) (elements last n p) mem) (hok : (elements last n p).value mem ≠ none) :
    All Sized (elements last n p) mem := by
  induction n generalizing p with
  | zero => exact all_pure _
  | succ n ih =>
    unfold elements at hs hok ⊢
    rw [all_bind] at hs ⊢
    rw [value_bind] at hok
    by_cases hbad : ((parseElement last p).value mem).2 = -2
    · rw [if_pos hbad] at hok
      exact absurd rfl hok
    · rw [if_neg hbad, all_bind, all_bind] at hs ⊢
      rw [if_neg hbad, value_bind, value_bind] at hok
      obtain ⟨hs₁, hs₂, hs₃, -⟩ := hs
      have hsized := parseElement_sized h₀ ha hlow hs₁ hbad (sliceValue_served hs₂)
      have hlt := (parseElement_sliced h₀ hlast (all_sound hsized hs₁) hbad).lt_stop
      refine ⟨hsized, sliceValue_sized _, ih ?_ hs₃ fun hnone => ?_, all_pure _⟩
      · rw [sliceValue_stop]
        omega
      · rw [hnone] at hok
        exact hok rfl

theorem arrayBody_sized {p count : Int} (h₀ : 0 ≤ p) (ha : 0 ≤ a) (hlow : a + last ≤ 2 ^ 31) (hlast : last < 2 ^ 31)
    (hs : All (Served a) (arrayBody last p count) mem) (hok : (arrayBody last p count).value mem ≠ .ok none) :
    All Sized (arrayBody last p count) mem := by
  unfold arrayBody at hs hok ⊢
  by_cases hroom : last ≤ p + 1
  · rw [if_pos hroom]
    exact all_pure _
  · rw [if_neg hroom, all_read_bind] at hs ⊢
    rw [if_neg hroom, value_read_bind] at hok
    refine ⟨trivial, ?_⟩
    by_cases hlf : mem (p + 1) ≠ 10
    · rw [if_pos hlf]
      exact all_pure _
    · by_cases hnil : count = -1
      · rw [if_neg hlf, if_pos hnil]
        exact all_pure _
      · by_cases hmax : (maxArr : Int) < count
        · rw [if_neg hlf, if_neg hnil, if_pos hmax]
          exact all_pure _
        · rw [if_neg hlf, if_neg hnil, if_neg hmax, all_bind] at hs ⊢
          rw [if_neg hlf, if_neg hnil, if_neg hmax, value_bind] at hok
          refine ⟨elements_sized ha hlow hlast (by omega) hs.2.1 fun hnone => ?_, all_pure _⟩
          rw [hnone] at hok
          exact hok rfl

theorem parseMultiBulk_sized (h₀ : 0 ≤ src) (ha : 0 ≤ a) (hlow : a + last ≤ 2 ^ 31) (hlast : last < 2 ^ 31)
    (hs : All (Served a) (parseMultiBulk last src) mem) (hok : (parseMultiBulk last src).value mem ≠ .ok none) :
    All Sized (parseMultiBulk last src) mem := by
  unfold parseMultiBulk at hs hok ⊢
  by_cases hend : last ≤ src
  · rw [if_pos hend]
    exact all_pure _
  · rw [if_neg hend, all_bind] at hs ⊢
    rw [if_neg hend, value_bind] at hok
    refine ⟨readCount_reads _ fun _ _ _ => trivial, ?_⟩
    cases hr : (readCount last (last - src).toNat src 0).value mem with
    | none => exact all_pure _
    | some r =>
      rw [hr] at hs hok
      exact arrayBody_sized (h₀.trans (readCount_some hr).1) ha hlow hlast hs.2 hok

theorem lineReply_sized (hsrc : src < last) (type : ReplyType) (value : Bytes → Value) (message : String) :
    All Sized (lineReply last src type value message) mem := by
  refine all_bind.2 ⟨parseLine_reads (by omega) _ fun _ _ _ => trivial, ?_⟩
  split
  · exact all_pure _
  · exact all_bind.2 ⟨all_copy.2 trivial, all_pure _⟩

theorem bulkReply_sized (h₀ : 0 ≤ src) (ha : 0 ≤ a) (hlow : a + last ≤ 2 ^ 31)
    (hs : All (Served a) (bulkReply last src) mem) (hok : ((bulkReply last src).value mem).type ≠ .bad) :
    All Sized (bulkReply last src) mem := by
  unfold bulkReply at hs hok ⊢
  rw [all_bind] at hs ⊢
  rw [value_bind] at hok
  by_cases hbad : ((parseBulk last (src + 1)).value mem).2 = -2
  · rw [if_pos hbad] at hok
    exact absurd rfl hok
  · rw [if_neg hbad, all_bind] at hs ⊢
    exact ⟨parseBulk_sized (by omega) ha hlow hs.1 hbad (sliceValue_served hs.2.1), sliceValue_sized _, all_pure _⟩

/-- When a reply is returned, no length has wrapped around. -/
theorem redisParse_sized (h₀ : 0 ≤ src) (hsrc : src ≤ last) (ha : 0 ≤ a) (hlow : a + last ≤ 2 ^ 31)
    (hlast : last < 2 ^ 31) (hs : All (Served a) (redisParse last src) mem) {r : Parsed}
    (hval : (redisParse last src).value mem = .ok r) (hok : r.type ≠ .bad) : All Sized (redisParse last src) mem := by
  unfold redisParse at hs hval ⊢
  by_cases hend : last = src
  · rw [if_pos hend]
    exact all_pure _
  · have hlt : src < last := by omega
    rw [if_neg hend] at hs hval ⊢
    rw [value_read_bind] at hval
    rw [all_read_bind] at hs ⊢
    refine ⟨trivial, ?_⟩
    replace hs := hs.2
    split_ifs at hs hval ⊢
    · exact all_map.2 (lineReply_sized hlt _ _ _)
    · exact all_map.2 (lineReply_sized hlt _ _ _)
    · exact all_map.2 (lineReply_sized hlt _ _ _)
    · cases hval
      exact all_map.2 (bulkReply_sized h₀ ha hlow (all_map.1 hs) hok)
    · rw [multiBulkReply, all_bind] at hs ⊢
      refine ⟨parseMultiBulk_sized (by omega) ha hlow hlast hs.1 fun hnone => ?_, all_pure _⟩
      rw [multiBulkReply, value_bind, hnone] at hval
      cases hval
      exact hok rfl
    · exact all_pure _

end Sized

end Walk

/-! ## Stability -/

open Walk

/-- Where LuaJIT keeps a string of so many bytes: in the lowest 2 GiB. -/
structure Placed (a : Int) (n : Nat) : Prop where
  pos : 0 ≤ a
  low : a + n ≤ 2 ^ 31

/-- What `ngx.redis_decode` returns of a string at the address `a`, if no access faults and nothing raises. -/
def returned (a : Int) (outside : Mem) (b : Bytes) : Option Parsed :=
  if Scan.All (Served a) (Walk.redisParse b.length 0) (load b outside) then (redisDecode outside b).toOption else none

/-- The reply `r`, found at the start of `b`, is found there whatever follows, it is found in its own bytes
alone, and nothing but a bad reply is found in fewer of them; wherever these strings are and whatever is
around them. -/
structure Stable (b : Bytes) (r : Parsed) : Prop where
  inside : 0 < r.src ∧ r.src ≤ b.length
  extend : ∀ x a outside, (b ++ x).length < 2 ^ 31 → Placed a (b ++ x).length → returned a outside (b ++ x) = some r
  alone : ∀ a outside, Placed a (b.take r.src.toNat).length → returned a outside (b.take r.src.toNat) = some r
  early : ∀ k a outside r', k < r.src.toNat → Placed a (b.take k).length →
    returned a outside (b.take k) = some r' → r'.type = .bad

theorem returned_eq_some {a : Int} {outside : Mem} {b : Bytes} {r : Parsed} : returned a outside b = some r ↔
    Scan.All (Served a) (Walk.redisParse b.length 0) (load b outside) ∧
      (Walk.redisParse b.length 0).value (load b outside) = .ok r := by
  rw [returned, redisParse_value, Option.ite_none_right_eq_some]
  refine and_congr_right fun _ => ?_
  rw [redisDecode]
  cases redisParse (load b outside) b.length 0 <;> simp [Except.toOption]

section Buffers

variable {a : Int} {outside : Mem} {b : Bytes} {r : Parsed}

/-- Lengths that are what they seem keep the parser in its buffer, and the buffer has addresses. -/
theorem served_of_sound {n : Nat} {mem : Mem} (hn : n < 2 ^ 31) (ha : Placed a n)
    (hs : Scan.All Sound (Walk.redisParse n 0) mem) : Scan.All (Served a) (Walk.redisParse n 0) mem := by
  have hin : Scan.All (Access.Within n) (Walk.redisParse n 0) mem := by
    refine (redisParse_confined le_rfl (Int.natCast_nonneg n) (by exact_mod_cast hn)).iff.1 fun e he => ?_
    cases e with
    | note h =>
      obtain ⟨hpos, htop⟩ : 0 ≤ h.size ∧ h.size < 2 ^ 63 - 2 := (hs _ he).1
      rintro (hbig | ⟨hneg, -⟩)
      · omega
      · omega
    | _ => trivial
  intro e he
  have hlow := ha.low
  have hpos := ha.pos
  cases e with
  | read p =>
    obtain ⟨h₁, h₂⟩ : 0 ≤ p ∧ p < n := hin _ he
    exact ⟨by omega, by omega⟩
  | copy p len => exact (hs _ he).2
  | note h => trivial

/-- Another buffer that begins with the same bytes. -/
theorem Walk.Ended.transfer (h : Ended (fun l => Walk.redisParse l 0) (load b outside) 0 b.length r) {b' : Bytes}
    (hn : b'.length < 2 ^ 31) (ha : Placed a b'.length)
    (hsame : ∀ i : Nat, (i : Int) < r.src → i < b'.length → b'[i]? = b[i]?) (outside' : Mem) :
    (r.src ≤ b'.length → returned a outside' b' = some r) ∧
      (b'.length < r.src → ∀ r', returned a outside' b' = some r' → r'.type = .bad) := by
  obtain ⟨hall, hwhole, hcut⟩ := h.delimited b'.length (load b' outside') (Int.natCast_nonneg _) (shares_load hsame)
  refine ⟨fun hle => ?_, fun hlt r' hr' => ?_⟩
  · exact returned_eq_some.2 ⟨served_of_sound hn ha hall, hwhole hle⟩
  · obtain ⟨bad, hbad, htype⟩ := hcut hlt
    rw [(returned_eq_some.1 hr').2] at hbad
    cases hbad
    exact htype

theorem Walk.Ended.stable (hn : b.length < 2 ^ 31)
    (h : Ended (fun l => Walk.redisParse l 0) (load b outside) 0 b.length r) : Stable b r := by
  have hin := h.inside
  have hstart := h.start
  have htake (k : Nat) (i : Nat) (hi : i < (b.take k).length) : (b.take k)[i]? = b[i]? :=
    List.getElem?_take_of_lt (by rw [List.length_take] at hi; omega)
  have hshort (k : Nat) : (b.take k).length < 2 ^ 31 := (List.length_take_le' k b).trans_lt hn
  refine ⟨⟨hstart, hin⟩, fun x a outside' hx ha => ?_, fun a outside' ha => ?_, fun k a outside' r' hk ha hr' => ?_⟩
  · refine (h.transfer hx ha (fun i hi _ => List.getElem?_append_left (by omega)) outside').1 ?_
    rw [List.length_append]
    omega
  · refine (h.transfer (hshort _) ha (fun i _ hi => htake _ i hi) outside').1 ?_
    rw [List.length_take]
    omega
  · refine (h.transfer (hshort _) ha (fun i _ hi => htake _ i hi) outside').2 ?_ r' hr'
    rw [List.length_take]
    omega

end Buffers

/-- A reply that is returned from a string of less than 2 GiB is stable. -/
theorem parse_stable (a : Int) (outside : Mem) (b : Bytes) (hn : b.length < 2 ^ 31) (ha : Placed a b.length)
    (r : Parsed) (h : returned a outside b = some r) (hr : r.type ≠ .bad) : Stable b r := by
  have hlast : (b.length : Int) < 2 ^ 31 := by exact_mod_cast hn
  obtain ⟨hs, hval⟩ := returned_eq_some.1 h
  have hsized := redisParse_sized le_rfl (Int.natCast_nonneg _) ha.pos ha.low hlast hs hval hr
  exact Ended.stable hn (redisParse_ended le_rfl (Int.natCast_nonneg _) hlast (all_sound hsized hs) hval hr)

theorem parse_stable_array : ∃ r, returned 4096 (fun _ => 0) arrayReply = some r ∧ Stable arrayReply r := by
  have hret : (returned 4096 (fun _ => 0) arrayReply).map Parsed.type = some .multiBulk := by decide +kernel
  obtain ⟨r, h, htype⟩ := Option.map_eq_some_iff.1 hret
  exact ⟨r, h, parse_stable 4096 _ arrayReply (by decide) ⟨by decide, by decide⟩ r h (by rw [htype]; decide)⟩

end NgProxy.Stream
