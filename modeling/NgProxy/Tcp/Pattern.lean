/-
The pattern of `receiveuntil` and the automaton `ngx_stream_lua_socket_compile_pattern` makes of it. Where a byte is not
the next one of the pattern, an edge of the state leads to the longest beginning of the pattern that is still possible,
if that has two bytes at least; without an edge the byte is looked at once more as if it were the first. So the state
is always that of a search in one pass, and the pattern is found where it first occurs.
-/
import NgProxy.Lib.Border
import NgProxy.Lib.Machine
import NgProxy.Lib.Text

namespace NgProxy.Tcp

open Matching Machine

/-! ## The automaton -/

/-- `ngx_stream_lua_dfa_edge_t`. -/
structure Edge where
  chr : UInt8
  newState : Nat
  deriving DecidableEq

/-- The edge for a byte is added, or leads to the higher one of two states. -/
def addEdge (chr : UInt8) (newState : Nat) : List Edge → List Edge
  | [] => [⟨chr, newState⟩]
  | e :: l =>
    if e.chr = chr then (if e.newState < newState then { e with newState := newState } else e) :: l
    else e :: addEdge chr newState l

/-- The `while` loop of `compile_pattern`: how many bytes at `i` are those at the start, if there is a byte at `i` that
is and a later one that is not. -/
def overlap (data : Bytes) (i : Nat) : Nat → Nat → Option Nat
  | 0, _ => none
  | fuel + 1, len =>
    if len ≤ data.length - i - 1 then
      if data.take len = (data.drop i).take len then
        if data[len]? = data[i + len]? then overlap data i fuel (len + 1) else some len
      else none
    else none

/-- A turn of the `for` loop of `compile_pattern`. -/
def addOverlap (data : Bytes) (table : Nat → List Edge) (i : Nat) : Nat → List Edge :=
  match overlap data i data.length 1 with
  | none => table
  | some len => fun state =>
    if state = i + len then addEdge (data.getD len 0) (len + 1) (table state) else table state

/-- `ngx_stream_lua_socket_compile_pattern`: the edges of each state. -/
def compilePattern (data : Bytes) : Nat → List Edge :=
  if data.length ≤ 2 then fun _ => []
  else (List.range' 1 (data.length - 1)).foldl (addOverlap data) fun _ => []

/-- The state an edge for `c` leads to. -/
def follow (c : UInt8) (l : List Edge) : Option Nat := (l.find? fun e => e.chr = c).map Edge.newState

/-! ## Edges -/

variable {data : Bytes} {i len fuel : Nat} {c : UInt8}

theorem follow_addEdge_self (c : UInt8) (n : Nat) (l : List Edge) :
    follow c (addEdge c n l) = some (max n ((follow c l).getD 0)) := by
  induction l with
  | nil => simp [addEdge, follow]
  | cons e l ih =>
    rw [addEdge]
    by_cases he : e.chr = c
    · rw [if_pos he]
      by_cases hlt : e.newState < n
      · simp [follow, he, hlt, Nat.max_eq_left (le_of_lt hlt)]
      · simp [follow, he, hlt, Nat.max_eq_right (not_lt.1 hlt)]
    · rw [if_neg he]
      have hskip : ∀ l, follow c (e :: l) = follow c l := fun l => by simp [follow, he]
      rw [hskip, hskip, ih]

theorem follow_addEdge_ne {chr : UInt8} (h : chr ≠ c) (n : Nat) (l : List Edge) :
    follow c (addEdge chr n l) = follow c l := by
  induction l with
  | nil => simp [addEdge, follow, h]
  | cons e l ih =>
    rw [addEdge]
    by_cases he : e.chr = chr
    · have hc : e.chr ≠ c := he ▸ h
      rw [if_pos he]
      split <;> simp [follow, hc]
    · rw [if_neg he]
      by_cases hc : e.chr = c
      · simp [follow, hc]
      · have hskip : ∀ l, follow c (e :: l) = follow c l := fun l => by simp [follow, hc]
        rw [hskip, hskip, ih]

/-! ## Overlaps -/

/-- The first `len` bytes are also those at `i`, the next ones differ. -/
structure Overlap (data : Bytes) (i len : Nat) : Prop where
  pos : 1 ≤ len
  shift : 1 ≤ i
  inside : i + len < data.length
  same : ∀ j < len, data[j]? = data[i + j]?
  differ : data[len]? ≠ data[i + len]?

theorem take_eq_iff : data.take len = (data.drop i).take len ↔ ∀ j < len, data[j]? = data[i + j]? := by
  constructor
  · intro heq j hj
    have := congrArg (·[j]?) heq
    simpa [List.getElem?_take, hj, List.getElem?_drop] using this
  · intro hall
    refine List.ext_getElem? fun j => ?_
    by_cases hj : j < len
    · simp [hj, List.getElem?_drop, hall j hj]
    · simp [hj]

theorem overlap_from (hi : 1 ≤ i) (hlen : 1 ≤ len) (hfuel : data.length < fuel + len) {n : Nat} :
    overlap data i fuel len = some n ↔ len ≤ n ∧ Overlap data i n := by
  induction fuel generalizing len with
  | zero =>
    constructor
    · intro h
      cases h
    · rintro ⟨hle, ho⟩
      have := ho.inside
      omega
  | succ fuel ih =>
    rw [overlap]
    by_cases hin : len ≤ data.length - i - 1
    · rw [if_pos hin]
      by_cases htake : data.take len = (data.drop i).take len
      · rw [if_pos htake]
        rw [take_eq_iff] at htake
        by_cases heq : data[len]? = data[i + len]?
        · rw [if_pos heq, ih (by omega) (by omega)]
          constructor
          · rintro ⟨hle, ho⟩
            exact ⟨by omega, ho⟩
          · rintro ⟨hle, ho⟩
            refine ⟨?_, ho⟩
            have hne : n ≠ len := by
              rintro rfl
              exact ho.differ heq
            omega
        · rw [if_neg heq]
          constructor
          · intro h
            cases h
            exact ⟨le_rfl, hlen, hi, by omega, htake, heq⟩
          · rintro ⟨hle, ho⟩
            -- a longer overlap would contain the difference
            obtain rfl | hlt := hle.eq_or_lt
            · rfl
            · exact absurd (ho.same len hlt) heq
      · rw [if_neg htake]
        refine iff_of_false (by simp) ?_
        rintro ⟨hle, ho⟩
        exact htake (take_eq_iff.2 fun j hj => ho.same j (by omega))
    · rw [if_neg hin]
      refine iff_of_false (by simp) ?_
      rintro ⟨hle, ho⟩
      have := ho.inside
      omega

theorem overlap_iff (hi : 1 ≤ i) {n : Nat} : overlap data i data.length 1 = some n ↔ Overlap data i n := by
  rw [overlap_from hi le_rfl (by omega)]
  constructor
  · rintro ⟨-, ho⟩
    exact ho
  · intro ho
    exact ⟨ho.pos, ho⟩

/-! ## The table -/

/-- The edges of the table are those of the overlaps at the places `is`, each leading as far as one of them does. -/
structure Covers (data : Bytes) (is : List Nat) (table : Nat → List Edge) : Prop where
  sound : ∀ {q c n}, follow c (table q) = some n →
    ∃ i ∈ is, ∃ len, Overlap data i len ∧ i + len = q ∧ data[len]? = some c ∧ n = len + 1
  complete : ∀ {i len c}, i ∈ is → Overlap data i len → data[len]? = some c →
    ∃ n, follow c (table (i + len)) = some n ∧ len + 1 ≤ n

theorem Covers.addOverlap {is : List Nat} {table : Nat → List Edge} (h : Covers data is table) (hi : 1 ≤ i) :
    Covers data (is ++ [i]) (addOverlap data table i) := by
  rw [Tcp.addOverlap]
  cases ho : overlap data i data.length 1 with
  | none =>
    constructor
    · intro q c n hf
      obtain ⟨i', hi', hrest⟩ := h.sound hf
      exact ⟨i', List.mem_append_left _ hi', hrest⟩
    · intro i' len c hmem hov hc
      rcases List.mem_append.1 hmem with hmem | hmem
      · exact h.complete hmem hov hc
      · obtain rfl := List.mem_singleton.1 hmem
        rw [(overlap_iff hi).2 hov] at ho
        cases ho
  | some len =>
    have hov := (overlap_iff hi).1 ho
    have hlt : len < data.length := by
      have := hov.inside
      omega
    have hget : data[len]? = some (data.getD len 0) := by
      rw [List.getD_eq_getElem?_getD, List.getElem?_eq_getElem hlt, Option.getD_some]
    constructor
    · intro q c n hf
      dsimp only at hf
      by_cases hq : q = i + len
      · rw [if_pos hq] at hf
        by_cases hc : data.getD len 0 = c
        · rw [hc, follow_addEdge_self] at hf
          have hn := Option.some.inj hf
          rcases Nat.le_total ((follow c (table q)).getD 0) (len + 1) with hle | hle
          · rw [Nat.max_eq_left hle] at hn
            exact ⟨i, List.mem_append_right _ (List.mem_singleton_self i), len, hov, hq.symm, hc ▸ hget, hn.symm⟩
          · rw [Nat.max_eq_right hle] at hn
            cases hold : follow c (table q) with
            | none =>
              rw [hold] at hle
              simp at hle
            | some m =>
              rw [hold] at hn
              obtain ⟨i', hi', hrest⟩ := h.sound hold
              exact ⟨i', List.mem_append_left _ hi', hn ▸ hrest⟩
        · rw [follow_addEdge_ne hc] at hf
          obtain ⟨i', hi', hrest⟩ := h.sound hf
          exact ⟨i', List.mem_append_left _ hi', hrest⟩
      · rw [if_neg hq] at hf
        obtain ⟨i', hi', hrest⟩ := h.sound hf
        exact ⟨i', List.mem_append_left _ hi', hrest⟩
    · intro i' len' c hmem hov' hc
      dsimp only
      rcases List.mem_append.1 hmem with hmem | hmem
      · obtain ⟨n, hn, hle⟩ := h.complete hmem hov' hc
        by_cases hq : i' + len' = i + len
        · rw [if_pos hq]
          by_cases hchr : data.getD len 0 = c
          · rw [hchr, follow_addEdge_self, hn]
            exact ⟨_, rfl, by simp; omega⟩
          · rw [follow_addEdge_ne hchr]
            exact ⟨n, hn, hle⟩
        · rw [if_neg hq]
          exact ⟨n, hn, hle⟩
      · obtain rfl := List.mem_singleton.1 hmem
        have hsome := (overlap_iff hi).2 hov'
        rw [ho] at hsome
        obtain rfl := Option.some.inj hsome
        have hchr : data.getD len 0 = c := Option.some.inj (hget.symm.trans hc)
        rw [if_pos rfl, hchr, follow_addEdge_self]
        exact ⟨_, rfl, Nat.le_max_left ..⟩

theorem covers_fold {is js : List Nat} {table : Nat → List Edge} (h : Covers data is table) (hjs : ∀ j ∈ js, 1 ≤ j) :
    Covers data (is ++ js) (js.foldl (addOverlap data) table) := by
  induction js generalizing is table with
  | nil => simpa using h
  | cons j js ih =>
    rw [List.forall_mem_cons] at hjs
    have := ih (h.addOverlap hjs.1) hjs.2
    rwa [List.append_assoc] at this

/-- Every overlap is in the compiled table. -/
theorem compilePattern_covers (data : Bytes) : Covers data (List.range' 1 (data.length - 1)) (compilePattern data) := by
  rw [compilePattern]
  split
  · rename_i hshort
    refine ⟨fun h => ?_, fun _ ho _ => ?_⟩
    · cases h
    · have := ho.inside
      have := ho.pos
      have := ho.shift
      omega
  · have hempty : Covers data [] fun _ => [] := by
      refine ⟨fun h => ?_, fun h => ?_⟩
      · cases h
      · cases h
    exact covers_fold hempty fun j hj => (List.mem_range'_1.1 hj).1

/-! ## What an edge is for -/

variable {q n : Nat}

theorem border_take (hlen : len < q) (hq : q ≤ data.length) :
    Border data (data.take q) len ↔ ∀ j < len, data[j]? = data[q - len + j]? := by
  have hdrop : (data.take q).drop (q - len) = (data.drop (q - len)).take len := by
    rw [List.drop_take]
    congr 1
    omega
  rw [Border, List.suffix_iff_eq_drop, List.length_take_of_le hq, List.length_take_of_le (by omega), hdrop, take_eq_iff]
  exact and_iff_right (by omega)

/-- A beginning of two bytes at least is still possible where an overlap ends. -/
theorem border_overlap (hq : q < data.length) (hc : data[q]? ≠ some c) (hlen : 1 ≤ len) :
    Border data (data.take q ++ [c]) (len + 1) ↔ len < q ∧ Overlap data (q - len) len ∧ data[len]? = some c := by
  rw [border_snoc]
  constructor
  · rintro ⟨hb, hd⟩
    have hlt : len < q := by
      have hle := hb.le
      rw [List.length_take_of_le hq.le] at hle
      obtain rfl | hlt := hle.eq_or_lt
      · exact absurd hd hc
      · exact hlt
    have hsum : q - len + len = q := by omega
    refine ⟨hlt, ⟨hlen, by omega, by omega, (border_take hlt hq.le).1 hb, ?_⟩, hd⟩
    rw [hsum, hd]
    exact hc.symm
  · rintro ⟨hlt, ho, hd⟩
    exact ⟨(border_take hlt hq.le).2 ho.same, hd⟩

theorem edge_longest (hq : q < data.length) (hc : data[q]? ≠ some c)
    (h : follow c (compilePattern data q) = some n) : 2 ≤ n ∧ n ≤ q ∧ Longest data (data.take q ++ [c]) n := by
  have hcov := compilePattern_covers data
  obtain ⟨i, -, len, ho, rfl, hd, rfl⟩ := hcov.sound h
  have hpos := ho.pos
  have hshift := ho.shift
  refine ⟨by omega, by omega, (border_overlap hq hc hpos).2 ⟨by omega, ?_, hd⟩, fun j hj => ?_⟩
  · rwa [Nat.add_sub_cancel]
  · rcases j with _ | _ | j
    · exact Nat.zero_le _
    · omega
    · obtain ⟨hlt, ho', hd'⟩ := (border_overlap hq hc (Nat.succ_pos j)).1 hj
      have hmem : i + len - (j + 1) ∈ List.range' 1 (data.length - 1) := by
        rw [List.mem_range'_1]
        omega
      obtain ⟨n', hn', hle⟩ := hcov.complete hmem ho' hd'
      rw [show i + len - (j + 1) + (j + 1) = i + len by omega, h] at hn'
      cases hn'
      exact hle

theorem no_edge (hq : q < data.length) (hc : data[q]? ≠ some c) (h : follow c (compilePattern data q) = none) {j : Nat}
    (hj : Border data (data.take q ++ [c]) j) : j ≤ 1 := by
  rcases j with _ | _ | j
  · omega
  · omega
  · obtain ⟨hlt, ho, hd⟩ := (border_overlap hq hc (Nat.succ_pos j)).1 hj
    have hmem : q - (j + 1) ∈ List.range' 1 (data.length - 1) := by
      rw [List.mem_range'_1]
      omega
    obtain ⟨n', hn', -⟩ := (compilePattern_covers data).complete hmem ho hd
    rw [show q - (j + 1) + (j + 1) = q by omega, h] at hn'
    cases hn'

/-! ## The search -/

/-- What `receiveuntil` is called with. -/
structure Pattern where
  data : Bytes
  inclusive : Bool

/-- The state of a search, whether the pattern has been found by a call for so many bytes, so that the next call has to
say so, and how many bytes the call is still to return. -/
structure Progress where
  state : Nat
  ended : Bool
  rest : Nat
  deriving DecidableEq

namespace Pattern

variable (cp : Pattern) (length : Nat) (k : Progress) (c : UInt8)

/-- The next byte of the pattern. -/
def hit : Step Progress UInt8 :=
  if k.state + 1 = cp.data.length then
    .stop { k with state := 0, ended := decide (length ≠ 0) } (if cp.inclusive then cp.data else [])
  else .more { k with state := k.state + 1 } []

/-- A byte that is not the first one of the pattern. -/
def pass : Step Progress UInt8 :=
  if length ≠ 0 ∧ k.rest - 1 = 0 then .stop { k with state := 0, rest := 0 } [c]
  else .more { k with state := 0, rest := if length ≠ 0 then k.rest - 1 else k.rest } [c]

/-- A byte that is not the next one, but the last one of a shorter beginning of the pattern. -/
def jump (new : Nat) : Step Progress UInt8 :=
  let out := cp.data.take (k.state + 1 - new)
  if length ≠ 0 ∧ k.rest ≤ new then .stop { k with state := new, rest := 0 } out
  else .more { k with state := new, rest := if length ≠ 0 then k.rest - new else k.rest } out

/-- A byte in state 0. -/
def first : Step Progress UInt8 := if cp.data[0]? = some c then cp.hit length k else pass length k c

/-- What `receiveuntil` does with a byte. Where nothing of what has been matched counts any more, a call that has got
enough bytes returns before it looks at the byte again. -/
def untilStep : Step Progress UInt8 :=
  if k.state = 0 then cp.first length k c
  else if cp.data[k.state]? = some c then cp.hit length k
  else
    match follow c (compilePattern cp.data k.state) with
    | some new => cp.jump length k new
    | none =>
      let out := cp.data.take k.state
      if length ≠ 0 ∧ k.rest ≤ k.state then .back { k with state := 0, rest := 0 } out
      else
        (cp.first length { k with state := 0, rest := if length ≠ 0 then k.rest - k.state else k.rest } c).after out

/-- What a call puts out for the pattern itself. -/
def tail : Bytes := if cp.inclusive then cp.data else []

end Pattern

section Search

variable {cp : Pattern} {length : Nat} {k k' : Progress} {r got out l : Bytes}

/-- The search has read `r` and put out `got`, all but what is matched. -/
structure Going (cp : Pattern) (r got : Bytes) (k : Progress) : Prop where
  seeks : Seeks cp.data r k.state
  split : r = got ++ cp.data.take k.state
  open' : k.ended = false

/-- The same of a search that is to go on with `l`. -/
structure Paused (cp : Pattern) (r got : Bytes) (k : Progress) (l : Bytes) : Prop where
  resumes : Resumes cp.data r k.state l
  split : r = got ++ cp.data.take k.state
  open' : k.ended = false

/-- The search has found the pattern at the end of `r`, and not before. -/
def Found (cp : Pattern) (length : Nat) (r got : Bytes) (k : Progress) : Prop :=
  ∃ before, r = before ++ cp.data ∧ ¬cp.data <:+: r.dropLast ∧ got = before ++ cp.tail ∧ k.state = 0 ∧
    k.ended = decide (length ≠ 0)

/-- What a byte does to a search. -/
def Finds (cp : Pattern) (length : Nat) (k : Progress) (r got : Bytes) (c : UInt8) (l : Bytes) :
    Step Progress UInt8 → Prop
  | .more k' out => Going cp (r ++ [c]) (got ++ out) k'
  | .stop k' out => Found cp length (r ++ [c]) (got ++ out) k' ∨ length ≠ 0 ∧ Going cp (r ++ [c]) (got ++ out) k'
  | .back k' out => length ≠ 0 ∧ 0 < k.state ∧ k'.state = 0 ∧ Paused cp r (got ++ out) k' (c :: l)

theorem Going.paused (h : Going cp r got k) (l : Bytes) : Paused cp r got k l := ⟨h.seeks.resumes l, h.split, h.open'⟩

theorem hit_finds (habs : ¬cp.data <:+: r) (hlong : Longest cp.data (r ++ [c]) (k.state + 1))
    (hsplit : r = got ++ cp.data.take k.state) (hopen : k.ended = false) (hc : cp.data[k.state]? = some c) :
    Finds cp length k r got c l (cp.hit length k) := by
  obtain ⟨hlt, hget⟩ := List.getElem?_eq_some_iff.1 hc
  have htake : r ++ [c] = got ++ cp.data.take (k.state + 1) := by
    rw [hsplit, List.append_assoc, List.take_succ_eq_append_getElem hlt, hget]
  rw [Pattern.hit]
  split
  · rename_i hfull
    refine .inl ⟨got, ?_, ?_, rfl, rfl, rfl⟩
    · rw [htake, hfull, List.take_length]
    · rwa [List.dropLast_concat]
  · rename_i hpart
    exact ⟨Seeks.snoc hlong habs (by dsimp only; omega), by rw [List.append_nil]; exact htake, hopen⟩

theorem pass_finds (habs : ¬cp.data <:+: r) (hlong : Longest cp.data (r ++ [c]) 0) (hpos : 0 < cp.data.length)
    (hsplit : r = got) (hopen : k.ended = false) : Finds cp length k r got c l (Pattern.pass length k c) := by
  have hgoing : ∀ rest, Going cp (r ++ [c]) (got ++ [c]) ⟨0, k.ended, rest⟩ := fun rest =>
    ⟨Seeks.snoc hlong habs hpos, by simp [hsplit], hopen⟩
  rw [Pattern.pass]
  split
  · rename_i h
    exact .inr ⟨h.1, hgoing _⟩
  · exact hgoing _

/-- A byte after which nothing of what has been read counts. -/
theorem first_finds (habs : ¬cp.data <:+: r) (halone : ∀ j, Border cp.data (r ++ [c]) j → j ≤ 1)
    (hpos : 0 < cp.data.length) (hzero : k.state = 0) (hsplit : r = got) (hopen : k.ended = false) :
    Finds cp length k r got c l (cp.first length k c) := by
  obtain ⟨hyes, hno⟩ := longest_restart halone
  rw [Pattern.first]
  split
  · rename_i hc
    rw [← hzero] at hc
    refine hit_finds habs ?_ (by simpa [hzero] using hsplit) hopen hc
    rw [hzero] at hc ⊢
    exact hyes hc
  · rename_i hc
    exact pass_finds habs (hno hc) hpos hsplit hopen

theorem jump_finds {new : Nat} (h : Paused cp r got k (c :: l)) (hpos : 0 < k.state)
    (hc : cp.data[k.state]? ≠ some c) (hnew : follow c (compilePattern cp.data k.state) = some new) :
    Finds cp length k r got c l (cp.jump length k new) := by
  obtain ⟨htwo, hle, hlong⟩ := edge_longest h.resumes.lt hc hnew
  have hlt := h.resumes.lt
  have hsplit : r ++ [c] = got ++ cp.data.take (k.state + 1 - new) ++ cp.data.take new := by
    obtain ⟨t, ht⟩ := hlong.border.2
    have hlen := congrArg List.length ht
    rw [List.length_append, List.length_append, List.length_take_of_le hlt.le, List.length_take_of_le (by omega),
      List.length_singleton] at hlen
    have htake := congrArg (List.take t.length) ht
    rw [List.take_left, List.take_append_of_le_length (by rw [List.length_take_of_le hlt.le]; omega), List.take_take,
      Nat.min_eq_left (by omega)] at htake
    rw [show k.state + 1 - new = t.length by omega, ← htake, List.append_assoc, ht, h.split, List.append_assoc]
  have hgoing : ∀ rest, Going cp (r ++ [c]) (got ++ cp.data.take (k.state + 1 - new)) ⟨new, k.ended, rest⟩ :=
    fun rest =>
    ⟨Seeks.snoc ((h.resumes.longest hpos).snoc hlong) h.resumes.absent (by dsimp only; omega), hsplit, h.open'⟩
  rw [Pattern.jump]
  split
  · rename_i hrest
    exact .inr ⟨hrest.1, hgoing _⟩
  · exact hgoing _

/-- What has been put out before does not matter. -/
theorem Finds.after {step : Step Progress UInt8} (h : Finds cp length k' r (got ++ out) c l step)
    (hzero : k'.state = 0) :
    Finds cp length k r got c l (step.after out) := by
  cases step with
  | more k out => simpa [Finds, Step.after] using h
  | stop k out => simpa [Finds, Step.after] using h
  | back k out =>
    obtain ⟨-, hpos, -⟩ := h
    omega

theorem untilStep_finds (length : Nat) (h : Paused cp r got k (c :: l)) :
    Finds cp length k r got c l (cp.untilStep length k c) := by
  have hlt := h.resumes.lt
  rw [Pattern.untilStep]
  by_cases hzero : k.state = 0
  · rw [if_pos hzero]
    have hres := h.resumes
    rw [hzero] at hres
    exact first_finds hres.absent (fun j hj => hres.alone hj) hres.lt hzero (by simpa [hzero] using h.split) h.open'
  · rw [if_neg hzero]
    have hlong := h.resumes.longest (by omega)
    by_cases hc : cp.data[k.state]? = some c
    · rw [if_pos hc]
      exact hit_finds h.resumes.absent (hlong.hit hc) h.split h.open' hc
    · rw [if_neg hc]
      cases hnew : follow c (compilePattern cp.data k.state) with
      | some new => exact jump_finds h (by omega) hc hnew
      | none =>
        have halone : ∀ j, Border cp.data (r ++ [c]) j → j ≤ 1 := fun j hj =>
          no_edge hlt hc hnew (hlong.border_snoc_iff.1 hj)
        dsimp only
        split
        · rename_i hrest
          refine ⟨hrest.1, by omega, rfl, ⟨h.resumes.absent, by dsimp only; omega, .inr ⟨rfl, ?_⟩⟩, ?_, h.open'⟩
          · rintro c' t ⟨⟩
            exact halone
          · simpa using h.split
        · exact Finds.after (first_finds h.resumes.absent halone (by omega) rfl h.split h.open') rfl

/-- What a call does to a search: it finds the pattern, it has got enough bytes, or it gets to the end of the stream. -/
def Ends (cp : Pattern) (length : Nat) (k : Progress) (r got l : Bytes) (o : Fed Progress UInt8 UInt8) : Prop :=
  ∃ v, l = v ++ o.rest ∧
    (o.stopped = true ∧ Found cp length (r ++ v) (got ++ o.out) o.state ∨
      (o.stopped = true ∧ length ≠ 0 ∧ Paused cp (r ++ v) (got ++ o.out) o.state o.rest ∧
        (v ≠ [] ∨ 0 < k.state ∧ o.state.state = 0)) ∨
      o.stopped = false ∧ Going cp (r ++ v) (got ++ o.out) o.state)

theorem feed_until (length : Nat) (h : Going cp r got k ∨ l ≠ [] ∧ Paused cp r got k l) :
    Ends cp length k r got l (feed (cp.untilStep length) k l) := by
  induction l generalizing r got k with
  | nil =>
    rcases h with h | ⟨hne, -⟩
    · exact ⟨[], rfl, .inr (.inr ⟨rfl, by simpa using h⟩)⟩
    · exact absurd rfl hne
  | cons c l ih =>
    have hpaused : Paused cp r got k (c :: l) := h.elim (fun h => h.paused _) And.right
    have hstep := untilStep_finds length hpaused
    cases hs : cp.untilStep length k c with
    | more k' out =>
      rw [hs] at hstep
      rw [feed_more hs]
      obtain ⟨v, hv, hend⟩ := ih (.inl hstep)
      refine ⟨c :: v, congrArg (c :: ·) hv, ?_⟩
      simp only [List.append_assoc, List.singleton_append] at hend
      rcases hend with ⟨hstop, hfound⟩ | ⟨hstop, hlen, hp, -⟩ | ⟨hstop, hgoing⟩
      · exact .inl ⟨hstop, hfound⟩
      · exact .inr (.inl ⟨hstop, hlen, hp, .inl (List.cons_ne_nil _ _)⟩)
      · exact .inr (.inr ⟨hstop, hgoing⟩)
    | stop k' out =>
      rw [hs] at hstep
      rw [feed_stop hs]
      refine ⟨[c], rfl, ?_⟩
      rcases hstep with hfound | ⟨hlen, hgoing⟩
      · exact .inl ⟨rfl, hfound⟩
      · exact .inr (.inl ⟨rfl, hlen, hgoing.paused l, .inl (List.cons_ne_nil _ _)⟩)
    | back k' out =>
      rw [hs] at hstep
      rw [feed_back hs]
      obtain ⟨hlen, hpos, hzero, hp⟩ := hstep
      exact ⟨[], rfl, .inr (.inl ⟨rfl, hlen, by simpa using hp, .inr ⟨hpos, hzero⟩⟩)⟩

end Search

end NgProxy.Tcp
