/-
Where `ngx_stream_lua_redis_parse` reads. A length wraps around if its header has too many digits, and the
check against the end of the buffer can wrap around again; the parser keeps to its buffer exactly as long as
no length that it notes leads it out.
-/
import NgProxy.Stream.Walk

namespace NgProxy.Stream

open Lua Memory Text

namespace Walk

open Scan

/-! ## Where it reads -/

/-- The length leads out of the buffer: it is so large that the bound check wraps around, or it is below
zero and the line end behind the data is looked for before the buffer, or found in it. -/
def Wild (mem : Mem) (h : Header) : Prop :=
  2 ^ 63 - 2 ≤ h.size ∨
    h.size < -2 ∧ (h.data + h.size < 0 ∨ mem (h.data + h.size) = 13 ∧ mem (h.data + h.size + 1) = 10)

/-- The length of a header is not wild. -/
def Tame (mem : Mem) : Access Header → Prop
  | .note h => ¬ Wild mem h
  | _ => True

/-- The address behind the line end of a slice. -/
def sliceStop (d : Slice) : Int := if d.2 = -1 then d.1 + 2 else d.1 + d.2 + 2

/-- A slice that is refused, nil or a part of the buffer that ends with its line. -/
def Good (src last : Int) (d : Slice) : Prop :=
  d.2 = -2 ∨ src ≤ d.1 ∧ (d.2 = -1 ∧ d.1 + 2 ≤ last ∨ 0 ≤ d.2 ∧ d.1 + d.2 + 2 ≤ last)

section Access

variable {src last : Int} {mem : Mem} {P : Access Header → Prop}

/-! ### Lines and headers -/

theorem findCrlf_all {n : Nat} {p : Int} {seenCr : Bool} (hp : p ≤ last)
    (hP : ∀ q, p ≤ q → q < last → P (.read q)) : All P (findCrlf last n p seenCr) mem := by
  induction n generalizing p seenCr with
  | zero => exact all_pure _
  | succ n ih =>
    unfold findCrlf
    split
    · exact all_pure _
    · have hnext (b : Bool) : All P (findCrlf last n (p + 1) b) mem :=
        ih (by omega) fun q hq => hP q (by omega)
      refine all_read_bind.2 ⟨hP p (by omega) (by omega), ?_⟩
      split
      · exact hnext true
      · split
        · exact all_pure _
        · exact hnext false

theorem findCrlf_some {n : Nat} {p q : Int} {seenCr : Bool} (hp : p ≤ last)
    (h : Stream.findCrlf mem last n p seenCr = some q) : p ≤ q ∧ q < last ∧ (seenCr = false → p < q) := by
  induction n generalizing p seenCr with
  | zero => cases h
  | succ n ih =>
    unfold Stream.findCrlf at h
    split at h
    · cases h
    · split at h
      · obtain ⟨h₁, h₂, -⟩ := ih (by omega) h
        exact ⟨by omega, h₂, fun _ => by omega⟩
      · split at h
        · rename_i hcr
          cases h
          exact ⟨le_rfl, by omega, fun hs => by rw [hs] at hcr; cases hcr.1⟩
        · obtain ⟨h₁, h₂, -⟩ := ih (by omega) h
          exact ⟨by omega, h₂, fun _ => by omega⟩

theorem parseLine_cases (mem : Mem) (hsrc : src ≤ last) (h₀ : 0 ≤ src) (hlast : last < 2 ^ 31) :
    (Stream.parseLine mem last src).2 = -2 ∨ (Stream.parseLine mem last src).1 = src ∧
      0 ≤ (Stream.parseLine mem last src).2 ∧ src + (Stream.parseLine mem last src).2 + 2 ≤ last := by
  unfold Stream.parseLine
  split
  · exact .inl rfl
  · rename_i q hq
    obtain ⟨-, hlt, hnew⟩ := findCrlf_some hsrc hq
    have hnew := hnew rfl
    rw [int32_eq (by omega) (by omega)]
    exact .inr ⟨rfl, by dsimp only; omega, by dsimp only; omega⟩

theorem toCr_all {σ : Type} {step : σ → UInt8 → Option σ} {n : Nat} {p : Int} {x : σ}
    (hP : ∀ q, p ≤ q → q < last → P (.read q)) : All P (toCr last step n p x) mem := by
  induction n generalizing p x with
  | zero => exact all_pure _
  | succ n ih =>
    unfold toCr
    split
    · exact all_pure _
    · refine all_read_bind.2 ⟨hP p le_rfl (by omega), ?_⟩
      split
      · exact all_pure _
      · split
        · exact all_pure _
        · exact ih fun q hq => hP q (by omega)

/-- It stops in the buffer, with what the steps have made of the bytes before it. -/
theorem toCr_some {σ : Type} {step : σ → UInt8 → Option σ} {I : σ → Prop}
    (hI : ∀ x c y, I x → step x c = some y → I y) {n : Nat} {p : Int} {x : σ} (hx : I x) {q : Int} {y : σ}
    (h : (toCr last step n p x).value mem = some (q, y)) : p ≤ q ∧ q < last ∧ I y := by
  induction n generalizing p x with
  | zero => cases h
  | succ n ih =>
    rw [toCr_succ_value] at h
    split at h
    · cases h
    · split at h
      · cases h
        exact ⟨le_rfl, by omega, hx⟩
      · obtain ⟨z, hz, h⟩ := Option.bind_eq_some_iff.1 h
        obtain ⟨h₁, hrest⟩ := ih (hI x _ z hx hz) h
        exact ⟨by omega, hrest⟩

/-! ### Slices -/

/-- Reads of the bytes from `src` on, and nothing else. -/
def ReadsFrom (src last : Int) (mem : Mem) {α : Type} (x : Walk α) : Prop :=
  ∀ P : Access Header → Prop, (∀ q, src ≤ q → q < last → P (.read q)) → All P x mem

/-- Without a wild length the buffer is not left and the slice is a good one; and a wild length shows in the
accesses or as a slice of a length below `-2`. -/
structure Contained (src last : Int) (mem : Mem) (x : Walk Slice) : Prop where
  inside : All (Tame mem) x mem → All (Access.Within last) x mem ∧ Good src last (x.value mem)
  tame : All (Access.Within last) x mem → -2 ≤ (x.value mem).2 → All (Tame mem) x mem

theorem good_invalid : Good src last invalid := .inl rfl

theorem Contained.reads {x : Walk Slice} (h₀ : 0 ≤ src) (hx : ReadsFrom src last mem x)
    (hgood : Good src last (x.value mem)) : Contained src last mem x where
  inside _ := ⟨hx _ fun q hq hlt => ⟨by omega, hlt⟩, hgood⟩
  tame _ _ := hx _ fun _ _ _ => trivial

theorem Contained.pure_invalid : Contained src last mem (pure invalid) where
  inside _ := ⟨all_pure _, good_invalid⟩
  tame _ _ := all_pure _

theorem Contained.bind {α : Type} {x : Walk α} {f : α → Walk Slice} (h₀ : 0 ≤ src) (hx : ReadsFrom src last mem x)
    (hf : Contained src last mem (f (x.value mem))) : Contained src last mem (x >>= f) where
  inside h := by
    obtain ⟨hin, hgood⟩ := hf.inside (all_bind.1 h).2
    exact ⟨all_bind.2 ⟨hx _ fun q hq hlt => ⟨by omega, hlt⟩, hin⟩, hgood⟩
  tame h hge := all_bind.2 ⟨hx _ fun _ _ _ => trivial, hf.tame (all_bind.1 h).2 hge⟩

theorem Contained.mono {src' : Int} {x : Walk Slice} (h : Contained src last mem x) (hle : src' ≤ src) :
    Contained src' last mem x where
  inside hx := by
    obtain ⟨hin, hgood⟩ := h.inside hx
    exact ⟨hin, hgood.imp_right fun hd => ⟨hle.trans hd.1, hd.2⟩⟩
  tame := h.tame

theorem reads_read {p : Int} (h₁ : src ≤ p) (h₂ : p < last) : ReadsFrom src last mem (Scan.read p) :=
  fun _ hP => List.forall_mem_singleton.2 (hP p h₁ h₂)

theorem crAfter_reads {ok : UInt8 → Bool} {n : Nat} {p : Int} : ReadsFrom p last mem (crAfter last ok n p) :=
  fun _ hP => all_bind.2 ⟨toCr_all hP, all_pure _⟩

theorem readSize_reads {n : Nat} {p size : Int} : ReadsFrom p last mem (readSize last n p size) :=
  fun _ hP => toCr_all hP

theorem crAfter_some {ok : UInt8 → Bool} {n : Nat} {p q : Int} (h : (crAfter last ok n p).value mem = some q) :
    p ≤ q ∧ q < last := by
  obtain ⟨⟨q', u⟩, hr, rfl⟩ := Option.map_eq_some_iff.1 h
  obtain ⟨h₁, h₂, -⟩ := toCr_some (I := fun _ => True) (fun _ _ _ _ _ => trivial) trivial hr
  exact ⟨h₁, h₂⟩

theorem int64_bounds (x : Int) : -2 ^ 63 ≤ int64 x ∧ int64 x < 2 ^ 63 := by
  unfold int64
  omega

theorem readSize_some {n : Nat} {p q size : Int} (h : (readSize last n p 0).value mem = some (q, size)) :
    p ≤ q ∧ q < last ∧ -2 ^ 63 ≤ size ∧ size < 2 ^ 63 := by
  refine toCr_some (I := fun size => -2 ^ 63 ≤ size ∧ size < 2 ^ 63) ?_ (by decide) h
  intro x c y _ hstep
  unfold sizeDigit at hstep
  split at hstep
  · cases hstep
    exact int64_bounds _
  · cases hstep

theorem parseLine_reads (hsrc : src ≤ last) : ReadsFrom src last mem (parseLine last src) :=
  fun _ hP => all_bind.2 ⟨findCrlf_all hsrc hP, all_pure _⟩

theorem parseLine_contained (h₀ : 0 ≤ src) (hsrc : src ≤ last) (hlast : last < 2 ^ 31) :
    Contained src last mem (parseLine last src) := by
  refine Contained.reads h₀ (parseLine_reads hsrc) ?_
  rw [parseLine_value]
  rcases parseLine_cases mem hsrc h₀ hlast with h | ⟨hd, hlen, hend⟩
  · exact .inl h
  · exact .inr ⟨hd.ge, .inr ⟨hlen, by rw [hd]; exact hend⟩⟩

theorem nullBulk_contained (h₀ : 0 ≤ src) : Contained src last mem (nullBulk last src) := by
  refine Contained.bind h₀ crAfter_reads ?_
  cases hq : (skipDigits last (last - src).toNat src).value mem with
  | none => exact Contained.pure_invalid
  | some q =>
    obtain ⟨h₁, h₂⟩ := crAfter_some hq
    dsimp only
    split
    · exact Contained.pure_invalid
    · refine Contained.bind h₀ (reads_read (by omega) (by omega)) ?_
      split
      · exact Contained.pure_invalid
      · exact Contained.reads h₀ (fun _ _ => all_pure _) (.inr ⟨h₁, .inl ⟨rfl, by simp only [value_pure]; omega⟩⟩)

theorem dataEnd_all {q size : Int} :
    All P (dataEnd q size) mem ↔ P (.read (q + size)) ∧ (mem (q + size) = 13 → P (.read (q + size + 1))) := by
  refine all_read_bind.trans (and_congr_right' ?_)
  by_cases hcr : mem (q + size) = 13
  · rw [if_neg (not_not.2 hcr), all_read_bind]
    constructor
    · exact fun h _ => h.1
    · exact fun h => ⟨h hcr, by split <;> exact all_pure _⟩
  · rw [if_pos hcr]
    exact iff_of_true (all_pure _) fun h => absurd h hcr

theorem dataEnd_value {q size : Int} : (dataEnd q size).value mem =
    if mem (q + size) = 13 ∧ mem (q + size + 1) = 10 then (q, int32 size) else invalid := by
  have hval : (dataEnd q size).value mem =
      if mem (q + size) ≠ 13 then invalid else if mem (q + size + 1) ≠ 10 then invalid else (q, int32 size) := by
    simp only [dataEnd, value_ite, value_bind, value_pure]
    rfl
  rw [hval]
  by_cases hcr : mem (q + size) = 13 <;> by_cases hlf : mem (q + size + 1) = 10 <;> simp [hcr, hlf]

/-- Of the lengths below zero that are not wild only `-2` finds a line end, that of its own header. -/
theorem size_of_lineEnd {q size : Int} (hlf : mem (q - 1) = 10) (h : ¬ Wild mem ⟨q, size⟩)
    (hend : mem (q + size) = 13 ∧ mem (q + size + 1) = 10) : size = -2 ∨ 0 ≤ size := by
  have hneg : ¬ size < -2 := fun hlt => h (.inr ⟨hlt, .inr hend⟩)
  have hone : size ≠ -1 := by
    rintro rfl
    rw [show q + -1 = q - 1 by omega, hlf] at hend
    exact absurd hend.1 (by decide)
  omega

/-- The data at `q`, behind the line end of its header. -/
theorem data_contained {q size : Int} (hq : 2 ≤ q) (hle : q ≤ last) (hlf : mem (q - 1) = 10) (hlast : last < 2 ^ 31)
    (hlo : -2 ^ 63 ≤ size) (hhi : size < 2 ^ 63) :
    Contained q last mem (do
      note ⟨q, size⟩
      if last - q < int64 (size + 2) then pure invalid else dataEnd q size) where
  inside h := by
    have hwild : ¬ Wild mem ⟨q, size⟩ := all_note.1 (all_bind.1 h).1
    have htop : size < 2 ^ 63 - 2 := not_le.1 fun hle => hwild (.inl hle)
    rw [all_bind, value_bind, all_note, value_ite, value_pure, int64_eq (by omega) (by omega)]
    by_cases hroom : last - q < size + 2
    · rw [if_pos hroom, if_pos hroom]
      exact ⟨⟨trivial, all_pure _⟩, good_invalid⟩
    · rw [if_neg hroom, if_neg hroom, dataEnd_all, dataEnd_value]
      -- the line end behind the data is in the buffer, whatever the sign of the length
      have hstart : 0 ≤ q + size := by
        by_contra hbefore
        exact hwild (.inr ⟨by dsimp only; omega, .inl (not_le.1 hbefore)⟩)
      refine ⟨⟨trivial, ⟨hstart, by omega⟩, fun _ => ⟨by omega, by omega⟩⟩, ?_⟩
      split
      · rename_i hend
        rw [int32_eq (by omega) (by omega)]
        exact (size_of_lineEnd hlf hwild hend).imp id fun hpos => ⟨le_rfl, .inr ⟨hpos, by dsimp only; omega⟩⟩
      · exact good_invalid
  tame h hge := by
    refine all_bind.2 ⟨all_note.2 fun hwild => ?_, ?_⟩
    · -- a wild length always passes the check
      have hroom : ¬ last - q < int64 (size + 2) := by
        rcases hwild with htop | ⟨hneg, -⟩
        · dsimp only at htop
          unfold int64
          omega
        · dsimp only at hneg
          rw [int64_eq (by omega) (by omega)]
          omega
      rw [all_bind, if_neg hroom, dataEnd_all] at h
      rw [value_bind, if_neg hroom, dataEnd_value] at hge
      obtain ⟨hstart, hend⟩ : 0 ≤ q + size ∧ q + size < last := h.2.1
      rcases hwild with htop | ⟨hneg, hbefore | hfound⟩
      · dsimp only at htop
        omega
      · exact absurd hstart (not_le.2 hbefore)
      · -- a slice of that length is returned
        dsimp only at hneg hfound
        rw [if_pos hfound, int32_eq (by omega) (by omega)] at hge
        dsimp only at hge
        omega
    · split
      · exact all_pure _
      · exact dataEnd_all.2 ⟨trivial, fun _ => trivial⟩

theorem bulkData_contained {p size : Int} (h₀ : 0 ≤ p) (hlast : last < 2 ^ 31) (hlo : -2 ^ 63 ≤ size)
    (hhi : size < 2 ^ 63) : Contained p last mem (bulkData last p size) := by
  unfold bulkData
  split
  · exact Contained.pure_invalid
  · refine Contained.bind h₀ (reads_read (by omega) (by omega)) ?_
    split
    · exact Contained.pure_invalid
    · rename_i hlf
      have hlf' : mem (p + 2 - 1) = 10 := by
        rw [show p + 2 - 1 = p + 1 by omega]
        exact not_not.1 hlf
      exact (data_contained (by omega) (by omega) hlf' hlast hlo hhi).mono (by omega)

theorem parseBulk_contained (h₀ : 0 ≤ src) (hlast : last < 2 ^ 31) :
    Contained src last mem (parseBulk last src) := by
  unfold parseBulk
  split
  · exact Contained.pure_invalid
  · refine Contained.bind h₀ (reads_read le_rfl (by omega)) ?_
    split
    · exact (nullBulk_contained (by omega)).mono (by omega)
    · refine Contained.bind h₀ readSize_reads ?_
      cases hr : (readSize last (last - src).toNat src 0).value mem with
      | none => exact Contained.pure_invalid
      | some r =>
        obtain ⟨hp, -, hlo, hhi⟩ := readSize_some hr
        exact (bulkData_contained (by omega) hlast hlo hhi).mono hp

theorem parseElement_contained (h₀ : 0 ≤ src) (hlast : last < 2 ^ 31) :
    Contained src last mem (parseElement last src) := by
  unfold parseElement
  split
  · exact Contained.pure_invalid
  · refine Contained.bind h₀ (reads_read le_rfl (by omega)) ?_
    split
    · exact (parseLine_contained (by omega) (by omega) hlast).mono (by omega)
    · split
      · exact (parseBulk_contained (by omega) hlast).mono (by omega)
      · exact Contained.pure_invalid

/-! ### Values -/

/-- The buffer is left exactly with a wild length, and without one `Q` holds of what is returned. -/
structure Confined {α : Type} (last : Int) (mem : Mem) (x : Walk α) (Q : α → Prop) : Prop where
  iff : All (Tame mem) x mem ↔ All (Access.Within last) x mem
  post : All (Tame mem) x mem → Q (x.value mem)

variable {α β : Type} {Q : α → Prop}

theorem Confined.pure {a : α} (h : Q a) : Confined last mem (pure a) Q :=
  ⟨iff_of_true (all_pure _) (all_pure _), fun _ => h⟩

theorem Confined.map {x : Walk β} {f : β → α} (hx : Confined last mem x fun b => Q (f b)) :
    Confined last mem (f <$> x) Q := by
  refine ⟨?_, fun h => hx.post (all_map.1 h)⟩
  rw [all_map, all_map]
  exact hx.iff

theorem Confined.bind {x : Walk β} {f : β → Walk α} (h₀ : 0 ≤ src) (hx : ReadsFrom src last mem x)
    (hf : Confined last mem (f (x.value mem)) Q) : Confined last mem (x >>= f) Q := by
  have htame : All (Tame mem) x mem := hx _ fun _ _ _ => trivial
  have hin : All (Access.Within last) x mem := hx _ fun q hq hlt => ⟨by omega, hlt⟩
  refine ⟨?_, fun h => hf.post (all_bind.1 h).2⟩
  rw [all_bind, all_bind, hf.iff]
  exact and_congr_left' (iff_of_true htame hin)

theorem Confined.seq {x : Walk β} {Q' : β → Prop} {f : β → Walk α} (hx : Confined last mem x Q')
    (hf : Q' (x.value mem) → Confined last mem (f (x.value mem)) Q) : Confined last mem (x >>= f) Q where
  iff := by
    rw [all_bind, all_bind, hx.iff]
    exact and_congr_right fun hin => (hf (hx.post (hx.iff.2 hin))).iff
  post h := by
    obtain ⟨ht, htf⟩ := all_bind.1 h
    exact (hf (hx.post ht)).post htf

/-- A slice and what is made of it, if a length below `-2` would show there. -/
theorem Confined.slice {x : Walk Slice} {f : Slice → Walk α} (hx : Contained src last mem x)
    (hneg : All (Access.Within last) (f (x.value mem)) mem → -2 ≤ (x.value mem).2)
    (hf : Good src last (x.value mem) → Confined last mem (f (x.value mem)) Q) : Confined last mem (x >>= f) Q where
  iff := by
    rw [all_bind, all_bind]
    constructor
    · rintro ⟨ht, htf⟩
      obtain ⟨hin, hgood⟩ := hx.inside ht
      exact ⟨hin, (hf hgood).iff.1 htf⟩
    · -- what is made of the slice excludes that a wild length went unnoticed
      rintro ⟨hin, hinf⟩
      have ht := hx.tame hin (hneg hinf)
      exact ⟨ht, (hf (hx.inside ht).2).iff.2 hinf⟩
  post h := by
    obtain ⟨ht, htf⟩ := all_bind.1 h
    exact (hf (hx.inside ht).2).post htf

theorem sliceValue_stop (d : Slice) : ((sliceValue d).value mem).2 = sliceStop d := by
  rw [sliceValue_value]
  unfold Stream.sliceValue sliceStop
  split <;> rfl

theorem sliceValue_neg {d : Slice} (h : All (Access.Within last) (sliceValue d) mem) : -1 ≤ d.2 := by
  unfold sliceValue at h
  split at h
  · omega
  · have hcopy : Access.Within last (.copy d.1 d.2 : Access Header) := all_copy.1 (all_bind.1 h).1
    have := hcopy.1
    omega

theorem sliceValue_confined {d : Slice} (h₀ : 0 ≤ src) (hd : Good src last d) (hne : d.2 ≠ -2) :
    Confined last mem (sliceValue d) fun v => 0 ≤ v.2 ∧ v.2 ≤ last := by
  obtain ⟨hsrc, hd⟩ := hd.resolve_left hne
  unfold sliceValue
  split
  · exact Confined.pure (by dsimp only; omega)
  · refine ⟨?_, fun _ => ?_⟩
    · rw [all_bind, all_bind, all_copy, all_copy]
      refine iff_of_true ⟨trivial, all_pure _⟩ ⟨?_, all_pure _⟩
      show 0 ≤ d.2 ∧ 0 ≤ d.1 ∧ d.1 + d.2 ≤ last
      omega
    · simp only [value_bind, value_pure]
      omega

/-- A slice that is pushed unless it is refused. -/
theorem Confined.push {x : Walk Slice} {y : Walk α} {f : Slice → Value × Int → Walk α} (h₀ : 0 ≤ src)
    (hx : Contained src last mem x) (hy : Confined last mem y Q)
    (hf : ∀ d v, 0 ≤ v.2 ∧ v.2 ≤ last → Confined last mem (f d v) Q) :
    Confined last mem (x >>= fun d => if d.2 = -2 then y else sliceValue d >>= f d) Q := by
  refine Confined.slice hx ?_ fun hgood => ?_
  · split
    · intro _
      omega
    · intro h
      have := sliceValue_neg (all_bind.1 h).1
      omega
  · split
    · exact hy
    · rename_i hne
      exact (sliceValue_confined h₀ hgood hne).seq fun hv => hf _ _ hv

/-- The elements, by induction on how many are left: each one starts in the buffer. -/
theorem elements_confined (hlast : last < 2 ^ 31) (n : Nat) {p : Int} (h₀ : 0 ≤ p) (hp : p ≤ last) :
    Confined last mem (elements last n p) fun r => ∀ v, r = some v → 0 ≤ v.2 ∧ v.2 ≤ last := by
  induction n generalizing p with
  | zero => exact Confined.pure (by rintro v ⟨⟩; exact ⟨h₀, hp⟩)
  | succ n ih =>
    refine Confined.push h₀ (parseElement_contained h₀ hlast) (Confined.pure (by simp)) fun d v hv => ?_
    refine (ih hv.1 hv.2).seq fun hr => Confined.pure ?_
    intro w hw
    obtain ⟨t, ht, rfl⟩ := Option.map_eq_some_iff.1 hw
    exact hr t ht

theorem readCount_reads {n : Nat} {p count : Int} : ReadsFrom p last mem (readCount last n p count) := by
  intro P hP
  induction n generalizing p count with
  | zero => exact all_pure _
  | succ n ih =>
    unfold readCount
    split
    · exact all_pure _
    · refine all_read_bind.2 ⟨hP p le_rfl (by omega), ?_⟩
      split
      · exact all_pure _
      · split
        · split
          · exact all_pure _
          · refine all_read_bind.2 ⟨hP _ (by omega) (by omega), ?_⟩
            split
            · exact all_bind.2 ⟨crAfter_reads _ fun q hq => hP q (by omega), all_pure _⟩
            · exact all_pure _
        · split
          · exact ih fun q hq => hP q (by omega)
          · exact all_pure _

theorem readCount_some {n : Nat} {p count : Int} {r : Int × Int} (h : (readCount last n p count).value mem = some r) :
    p ≤ r.1 ∧ r.1 < last := by
  induction n generalizing p count with
  | zero => cases h
  | succ n ih =>
    rw [readCount_value, Stream.readCount] at h
    split at h
    · cases h
    · split at h
      · cases h
        omega
      · split at h
        · split at h
          · cases h
          · split at h
            · obtain ⟨q, hq, rfl⟩ := Option.map_eq_some_iff.1 h
              rw [← skipLine_value] at hq
              obtain ⟨h₁, h₂⟩ := crAfter_some hq
              exact ⟨by dsimp only; omega, h₂⟩
            · cases h
        · split at h
          · rw [← readCount_value] at h
            obtain ⟨h₁, h₂⟩ := ih h
            exact ⟨by omega, h₂⟩
          · cases h

theorem arrayBody_confined {p : Int} (h₀ : 0 ≤ p) (hlast : last < 2 ^ 31) (count : Int) :
    Confined last mem (arrayBody last p count) fun r => ∀ v, r = .ok (some v) → 0 ≤ v.2 ∧ v.2 ≤ last := by
  unfold arrayBody
  split
  · exact Confined.pure (by simp)
  · refine Confined.bind h₀ (reads_read (by omega) (by omega)) ?_
    split
    · exact Confined.pure (by simp)
    · split
      · exact Confined.pure (by rintro v ⟨⟩; dsimp only; omega)
      · split
        · exact Confined.pure (by simp)
        · refine (elements_confined hlast _ (by omega) (by omega)).seq fun hv => Confined.pure ?_
          intro w hw
          obtain ⟨t, ht, rfl⟩ := Option.map_eq_some_iff.1 (Except.ok.inj hw)
          exact hv t ht

theorem parseMultiBulk_confined (h₀ : 0 ≤ src) (hlast : last < 2 ^ 31) :
    Confined last mem (parseMultiBulk last src) fun r => ∀ v, r = .ok (some v) → 0 ≤ v.2 ∧ v.2 ≤ last := by
  unfold parseMultiBulk
  split
  · exact Confined.pure (by simp)
  · refine Confined.bind h₀ readCount_reads ?_
    cases hr : (readCount last (last - src).toNat src 0).value mem with
    | none => exact Confined.pure (by simp)
    | some r =>
      have hle := (readCount_some hr).1
      exact arrayBody_confined (by omega) hlast r.2

/-! ### Replies -/

/-- The pointer is in the buffer or right behind it, unless the reply is bad or an error is raised. -/
def CursorIn (last : Int) (x : Except LuaError Parsed) : Prop :=
  ∀ r, x = .ok r → r.type ≠ .bad → 0 ≤ r.src ∧ r.src ≤ last

theorem badReply_cursor (message : String) : CursorIn last (.ok (badReply src message)) := by
  rintro r ⟨⟩ h
  exact absurd rfl h

theorem cursorIn_ok {r : Parsed} (h : 0 ≤ r.src ∧ r.src ≤ last) : CursorIn last (.ok r) := by
  rintro r ⟨⟩ -
  exact h

theorem lineReply_confined (h₀ : 0 ≤ src) (hsrc : src < last) (hlast : last < 2 ^ 31) (type : ReplyType)
    (value : Bytes → Value) (message : String) :
    Confined last mem (lineReply last src type value message) fun r => CursorIn last (.ok r) := by
  have hnext : src + 1 ≤ last := by omega
  refine Confined.bind (by omega) (parseLine_reads hnext) ?_
  rw [parseLine_value]
  rcases parseLine_cases mem hnext (by omega) hlast with h | ⟨hd, hlen, hend⟩
  · rw [if_pos h]
    exact Confined.pure (badReply_cursor message)
  · rw [if_neg (by omega)]
    refine ⟨?_, fun _ => cursorIn_ok ?_⟩
    · rw [all_bind, all_bind, all_copy, all_copy]
      refine iff_of_true ⟨trivial, all_pure _⟩ ⟨⟨hlen, by omega, by omega⟩, all_pure _⟩
    · simp only [value_bind, value_pure]
      rw [int32_eq (by omega) (by omega)]
      omega

theorem bulkReply_confined (h₀ : 0 ≤ src) (hlast : last < 2 ^ 31) :
    Confined last mem (bulkReply last src) fun r => CursorIn last (.ok r) :=
  Confined.push (by omega) (parseBulk_contained (by omega) hlast) (Confined.pure (badReply_cursor _)) fun _ _ hv =>
    Confined.pure (cursorIn_ok hv)

theorem multiBulkReply_confined (h₀ : 0 ≤ src) (hlast : last < 2 ^ 31) :
    Confined last mem (multiBulkReply last src) (CursorIn last) := by
  refine (parseMultiBulk_confined (by omega) hlast).seq fun hv => Confined.pure ?_
  rcases hr : (parseMultiBulk last (src + 1)).value mem with e | _ | r
  · rintro r ⟨⟩
  · exact badReply_cursor _
  · exact cursorIn_ok (hv r hr)

theorem redisParse_confined (h₀ : 0 ≤ src) (hsrc : src ≤ last) (hlast : last < 2 ^ 31) :
    Confined last mem (redisParse last src) (CursorIn last) := by
  unfold redisParse
  split
  · exact Confined.pure (badReply_cursor _)
  · refine Confined.bind h₀ (reads_read le_rfl (by omega)) ?_
    have hline (type : ReplyType) (value : Bytes → Value) (message : String) :
        Confined last mem (.ok <$> lineReply last src type value message) (CursorIn last) :=
      (lineReply_confined h₀ (by omega) hlast type value message).map
    split
    · exact hline _ _ _
    · split
      · exact hline _ _ _
      · split
        · exact hline _ _ _
        · split
          · exact (bulkReply_confined h₀ hlast).map
          · split
            · exact multiBulkReply_confined h₀ hlast
            · exact Confined.pure (badReply_cursor _)

end Access

end Walk

end NgProxy.Stream
