/-
The text of a `CLUSTER NODES` reply as Redis 3.x writes it, and what `update_cluster_nodes` reads from
its pieces: a field names slots or is passed over, a line appends its address and assigns its slots.
-/
import NgProxy.Cluster.Kind
import NgProxy.Cluster.Nodes

namespace NgProxy.Cluster

open Lua Codec Prog Text

variable {W : Type}

/-! ## The grammar -/

/-- A byte of a field: printable and no blank. -/
def isPrint (b : UInt8) : Bool := decide (33 ≤ b) && decide (b ≤ 126)

/-- A lower-case hexadecimal digit. -/
def isHex (b : UInt8) : Bool := isDigit b || (decide (97 ≤ b) && decide (b ≤ 102))

/-- The name of a node. -/
structure NodeId where
  text : Bytes
  ne : text ≠ []
  hex : ∀ b ∈ text, isHex b = true

/-- A field that is not read: flags, the master, times, the epoch and the state of the link. -/
structure Info where
  text : Bytes
  plain : ∀ b ∈ text, isPrint b = true

/-- The address of a line. A node writes `:0` when it does not know its own, or leaves out the host. -/
inductive Address where
  | unknown
  | known (host : Bytes) (port : Nat) (plain : ∀ b ∈ host, isPrint b = true) (le : port ≤ 65535)
      (named : host = [] → 0 < port)

/-- A field from the ninth on: a slot, a range of slots, or a slot on its way to or from a node. -/
inductive SlotField where
  | one (a : Fin 16384)
  | range (a b : Fin 16384) (le : a ≤ b)
  | migrating (slot : Fin 16384) (id : NodeId)
  | importing (slot : Fin 16384) (id : NodeId)

structure Line where
  id : NodeId
  address : Address
  info : List Info
  info_length : info.length = 6
  slots : List SlotField

def Address.text : Address → Bytes
  | .unknown => bytes ":0"
  | .known host port _ _ _ => host ++ 58 :: decimal port

/-- Nothing when the address is not known. -/
def Address.host? : Address → Option Bytes
  | .unknown => none
  | .known host _ _ _ _ => some host

/-- The node at the address; `node` has been asked. -/
def Address.node (node : Node) : Address → Node
  | .unknown => node
  | .known host port _ _ _ => ⟨host, some (.int port)⟩

namespace SlotField

def text : SlotField → Bytes
  | .one a => decimal a
  | .range a b _ => decimal a ++ 45 :: decimal b
  | .migrating slot id => 91 :: (decimal slot ++ bytes "->-" ++ id.text ++ bytes "]")
  | .importing slot id => 91 :: (decimal slot ++ bytes "-<-" ++ id.text ++ bytes "]")

def bracketed : SlotField → Bool
  | .migrating _ _ => true
  | .importing _ _ => true
  | _ => false

/-- The slots a field gives to the node of its line. -/
def owned : SlotField → List Nat
  | .one a => [a]
  | .range a b _ => List.range' a (b + 1 - a)
  | _ => []

end SlotField

namespace Line

def fields (l : Line) : List Bytes :=
  l.id.text :: l.address.text :: (l.info.map Info.text ++ l.slots.map SlotField.text)

def text (l : Line) : Bytes := [32].intercalate l.fields

/-- The slots a line gives to its node. -/
def owned (l : Line) : List Nat := l.slots.flatMap SlotField.owned

end Line

/-- The reply: lines that end with a line feed. -/
def nodesText (lines : List Line) : Bytes := lines.flatMap fun l => l.text ++ [10]

/-- The line of a master with the flags, the address and the slots. -/
def masterLine (flags : Info) (address : Address) (slots : List SlotField) : Line where
  id := ⟨bytes "07c37dfeb235213a872192d90877d0cd55635b91", by decide, List.all_eq_true.1 rfl⟩
  address := address
  info := [flags, ⟨bytes "-", List.all_eq_true.1 rfl⟩, ⟨bytes "0", List.all_eq_true.1 rfl⟩,
    ⟨bytes "0", List.all_eq_true.1 rfl⟩, ⟨bytes "1", List.all_eq_true.1 rfl⟩,
    ⟨bytes "connected", List.all_eq_true.1 rfl⟩]
  info_length := rfl
  slots := slots

/-! ## Plain bytes -/

theorem isPrint_ne {b c : UInt8} (h : isPrint b = true) (hc : c < 33) : b ≠ c := by
  rintro rfl
  simp only [isPrint, Bool.and_eq_true, decide_eq_true_eq, UInt8.le_iff_toNat_le, UInt8.lt_iff_toNat_lt] at h hc
  omega

theorem isDigit_print {b : UInt8} (h : isDigit b = true) : isPrint b = true := by
  simp only [isDigit, isPrint, Bool.and_eq_true, decide_eq_true_eq, UInt8.le_iff_toNat_le, UInt8.reduceToNat] at h ⊢
  omega

theorem isHex_print {b : UInt8} (h : isHex b = true) : isPrint b = true := by
  rcases Bool.or_eq_true_iff.1 h with h | h
  · exact isDigit_print h
  · simp only [isPrint, Bool.and_eq_true, decide_eq_true_eq, UInt8.le_iff_toNat_le, UInt8.reduceToNat] at h ⊢
    omega

theorem decimal_print (n : Nat) : ∀ b ∈ decimal n, isPrint b = true :=
  fun b hb => isDigit_print (decimal_isDigit n b hb)

theorem NodeId.print (id : NodeId) : ∀ b ∈ id.text, isPrint b = true := fun b hb => isHex_print (id.hex b hb)

theorem Address.text_print (a : Address) : ∀ b ∈ a.text, isPrint b = true := by
  cases a with
  | unknown => exact List.all_eq_true.1 rfl
  | known host port plain le named =>
    simp only [Address.text, List.forall_mem_append, List.forall_mem_cons]
    exact ⟨plain, by decide, decimal_print port⟩

theorem SlotField.text_print (f : SlotField) : ∀ b ∈ f.text, isPrint b = true := by
  cases f with
  | one a => exact decimal_print a
  | range a b le =>
    simp only [SlotField.text, List.forall_mem_append, List.forall_mem_cons]
    exact ⟨decimal_print a, by decide, decimal_print b⟩
  | migrating slot id =>
    simp only [SlotField.text, List.forall_mem_append, List.forall_mem_cons]
    exact ⟨by decide, ⟨⟨decimal_print slot, List.all_eq_true.1 rfl⟩, id.print⟩, List.all_eq_true.1 rfl⟩
  | importing slot id =>
    simp only [SlotField.text, List.forall_mem_append, List.forall_mem_cons]
    exact ⟨by decide, ⟨⟨decimal_print slot, List.all_eq_true.1 rfl⟩, id.print⟩, List.all_eq_true.1 rfl⟩

theorem Line.fields_print (l : Line) : ∀ f ∈ l.fields, ∀ b ∈ f, isPrint b = true := by
  simp only [Line.fields, List.forall_mem_cons, List.forall_mem_append, List.forall_mem_map]
  exact ⟨l.id.print, l.address.text_print, fun i _ => i.plain, fun f _ => f.text_print⟩

@[simp] theorem Line.length_fields (l : Line) : l.fields.length = l.slots.length + 8 := by
  simp [Line.fields, l.info_length]
  omega

/-! ## Splitting -/

theorem mem_join {d b : UInt8} {ps : List Bytes} (h : b ∈ [d].intercalate ps) : b = d ∨ ∃ p ∈ ps, b ∈ p := by
  induction ps with
  | nil => simp [List.intercalate] at h
  | cons p ps ih =>
    rcases ps with _ | ⟨q, ps⟩
    · exact .inr ⟨p, List.mem_cons_self .., by simpa [List.intercalate] using h⟩
    · rw [List.intercalate_cons_cons, List.append_assoc, List.mem_append, List.singleton_append, List.mem_cons] at h
      rcases h with h | h | h
      · exact .inr ⟨p, List.mem_cons_self .., h⟩
      · exact .inl h
      · exact (ih h).imp_right fun ⟨r, hr, hb⟩ => ⟨r, List.mem_cons_of_mem _ hr, hb⟩

/-- Splitting a join at its delimiter, when the last part may hold more of them. -/
theorem splitLoop_join {d : UInt8} {pre : List Bytes} (h : ∀ p ∈ pre, d ∉ p) (x : Bytes) {n : Nat}
    (hn : pre.length ≤ n) :
    splitLoop [d] n ([d].intercalate (pre ++ [x])) = pre ++ splitLoop [d] (n - pre.length) x := by
  induction pre generalizing n with
  | nil => simp
  | cons p pre ih =>
    obtain ⟨n, rfl⟩ : ∃ m, n = m + 1 := ⟨n - 1, by simp at hn; omega⟩
    have hjoin : [d].intercalate (p :: pre ++ [x]) = p ++ d :: [d].intercalate (pre ++ [x]) := by
      rcases pre with _ | ⟨q, pre⟩ <;> simp [List.intercalate]
    rw [hjoin, splitLoop_cut (h p (List.mem_cons_self ..)), ih (fun q hq => h q (List.mem_cons_of_mem _ hq))
      (by simpa using hn)]
    simp

/-- A join of few enough parts is split into them. -/
theorem splitLoop_parts {d : UInt8} {ps : List Bytes} (hne : ps ≠ []) (h : ∀ p ∈ ps, d ∉ p) {n : Nat}
    (hn : ps.length ≤ n + 1) : splitLoop [d] n ([d].intercalate ps) = ps := by
  rw [← List.dropLast_append_getLast hne] at hn h ⊢
  rw [splitLoop_join (fun p hp => h p (List.mem_append_left _ hp)) _ (by simpa using hn),
    splitLoop_whole (h _ (by simp))]

/-- What follows a part of a join. -/
def behind (d : UInt8) : List Bytes → Bytes
  | [] => []
  | p :: ps => d :: [d].intercalate (p :: ps)

/-- A join cut at one of its parts. -/
theorem join_cut (d : UInt8) (pre : List Bytes) (p : Bytes) (ps : List Bytes) (tail : Bytes) :
    [d].intercalate (pre ++ p :: ps) ++ tail = [d].intercalate (pre ++ [p ++ (behind d ps ++ tail)]) := by
  induction pre with
  | nil => cases ps <;> simp [behind, List.intercalate]
  | cons q pre ih =>
    have hcons : ∀ (x : Bytes) (l : List Bytes), [d].intercalate (q :: (pre ++ x :: l)) =
        q ++ d :: [d].intercalate (pre ++ x :: l) := by
      intro x l
      cases pre <;> simp [List.intercalate]
    rw [List.cons_append, List.cons_append, hcons, hcons, ← ih]
    simp

/-! ## What a field names -/

/-- The keys a field assigns; nothing when it cannot be read. -/
def fieldKeys (slot : Bytes) : Option (List Number) :=
  if slot.head? = some 91 then some []
  else
    match slotRange slot with
    | (some first, some last) => first.forValues last
    | _ => none

/-- Slots as Lua numbers. -/
def numbers (l : List Nat) : List Number := l.map fun i : Nat => Number.int i

theorem forLoop_int (b : Nat) (hb : b < 2 ^ 53) : ∀ (k a n : Nat), a + k = b + 1 → k < n →
    Number.forLoop n (.int a) (.int b) = some (numbers (List.range' a k))
  | 0, a, n + 1, hk, _ => by
    have : ¬ a ≤ b := by omega
    simp [Number.forLoop, Number.le, Number.mant, Number.exp, this, numbers]
  | k + 1, a, n + 1, hk, hn => by
    have hle : (Number.int a).le (.int b) = true := by
      simp [Number.le, Number.mant, Number.exp]
      omega
    have hadd : (Number.int a).add (.int 1) = .int (a + 1 : Nat) := by
      rw [add_int _ _ (by omega)]
      rfl
    have hne : Number.int (a + 1 : Nat) ≠ .int a := by simp
    rw [Number.forLoop, if_pos hle, hadd, if_neg hne, forLoop_int b hb k (a + 1) n (by omega) (by omega)]
    rfl

theorem forValues_int {a b : Nat} (hab : a ≤ b) (hb : b < 2 ^ 53) :
    (Number.int a).forValues (.int b) = some (numbers (List.range' a (b + 1 - a))) :=
  forLoop_int b hb _ _ _ (by omega) (by omega)

/-- A loop never visits NaN. -/
theorem forLoop_not_nan : ∀ (n : Nat) {x y : Number} {l : List Number}, Number.forLoop n x y = some l → .nan ∉ l
  | n + 1, x, y, l, h => by
    rw [Number.forLoop] at h
    split at h
    · rename_i hle
      split at h
      · cases h
      · obtain ⟨l', hl', rfl⟩ := Option.map_eq_some_iff.1 h
        have hx : Number.nan ≠ x := by
          rintro rfl
          simp [Number.le] at hle
        simp [hx, forLoop_not_nan n hl']
    · cases h
      simp

theorem decimal_head (n : Nat) : (decimal n).head? ≠ some 91 := by
  intro h
  exact absurd (decimal_isDigit n 91 (List.mem_of_mem_head? h)) (by decide)

theorem decimal_not_mem {c : UInt8} (hc : isDigit c = false) (n : Nat) : c ∉ decimal n := fun h => by
  simp [decimal_isDigit n c h] at hc

theorem head_decimal_append (n : Nat) (r : Bytes) : (decimal n ++ r).head? ≠ some 91 := by
  rw [List.head?_append_of_ne_nil _ (decimal_ne_nil n)]
  exact decimal_head n

theorem takeWhile_decimal (n : Nat) (r : Bytes) :
    (decimal n ++ r).takeWhile (· ≠ 45) = decimal n ++ r.takeWhile (· ≠ 45) :=
  List.takeWhile_append_of_pos (ne_of_not_mem (decimal_not_mem (by decide) n))

theorem slotRange_first (s : Bytes) : (slotRange s).1 = tonumber (s.takeWhile (· ≠ 45)) :=
  congrArg (Option.bind · tonumber) (splitLoop_head 45 1 s)

theorem slotRange_one {s : Bytes} (h : (45 : UInt8) ∉ s) : slotRange s = (tonumber s, tonumber s) := by
  have hs : splitLoop (bytes "-") 2 s = [s] := splitLoop_whole h 2
  simp [slotRange, hs]

theorem slotRange_cut {a : Bytes} (h : (45 : UInt8) ∉ a) (b : Bytes) :
    slotRange (a ++ 45 :: b) = (tonumber a, tonumber (b.takeWhile (· ≠ 45))) := by
  have hs : splitLoop (bytes "-") 2 (a ++ 45 :: b) = a :: splitLoop [45] 1 b := splitLoop_cut h 1 b
  have hb := splitLoop_head 45 0 b
  rcases hl : splitLoop [45] 1 b with _ | ⟨x, l⟩
  · simp [hl] at hb
  · rw [hl] at hb
    cases hb
    simp [slotRange, hs, hl]

/-- Behind a field stands the end of the text, or the line feed before it. -/
def AtEnd (r : Bytes) : Prop := r = [] ∨ r = [10]

/-- Behind a field stands a blank and more text. -/
structure Runs (r : Bytes) : Prop where
  nonzero : ∀ b ∈ r, b ≠ 0
  more : ∃ c d t, r = c :: d :: t ∧ isSpace c = true ∧ isSpace d = false ∧ d ≠ 45

theorem AtEnd.not_mem {r : Bytes} (hr : AtEnd r) : (45 : UInt8) ∉ r := by
  rcases hr with rfl | rfl <;> decide

theorem tonumber_atEnd {r : Bytes} (hr : AtEnd r) {n : Nat} (hn : n ≤ 2 ^ 53) :
    tonumber (decimal n ++ r) = some (.int n) := by
  have hz : ∀ b ∈ r, b ≠ 0 := by rcases hr with rfl | rfl <;> simp
  have hblank : ∀ c ∈ r.head?, isSpace c = true := by rcases hr with rfl | rfl <;> simp [isSpace]
  have hdrop : r.dropWhile isSpace = [] := by rcases hr with rfl | rfl <;> decide
  rw [tonumber_digits_rest (decimal_ne_nil n) (decimal_isDigit n) hblank hz, if_pos hdrop, readNat_decimal,
    ofRatio_int _ _ hn]
  rfl

theorem tonumber_runs {r : Bytes} (hr : Runs r) (n : Nat) :
    tonumber ((decimal n ++ r).takeWhile (· ≠ 45)) = none := by
  obtain ⟨c, d, t, rfl, hc, hd, hd45⟩ := hr.more
  have hc45 : c ≠ 45 := by
    rintro rfl
    simp [isSpace] at hc
  have htake : (c :: d :: t).takeWhile (· ≠ 45) = c :: d :: t.takeWhile (· ≠ 45) := by simp [hc45, hd45]
  have hz : ∀ b ∈ (c :: d :: t).takeWhile (· ≠ 45), b ≠ 0 := fun b hb =>
    hr.nonzero b ((List.takeWhile_sublist _).subset hb)
  rw [takeWhile_decimal]
  rw [htake] at hz ⊢
  rw [tonumber_digits_rest (decimal_ne_nil n) (decimal_isDigit n) (by simp [hc]) hz, if_neg (by simp [hc, hd])]

namespace SlotField

variable (f : SlotField)

theorem head_text : f.text.head? = some 91 ↔ f.bracketed = true := by
  cases f with
  | one a => simp [text, bracketed, decimal_head]
  | range a b le => exact iff_of_false (head_decimal_append a _) (by simp [bracketed])
  | migrating slot id => simp [text, bracketed]
  | importing slot id => simp [text, bracketed]

theorem text_ne : f.text ≠ [] := by
  cases f <;> simp [text, decimal_ne_nil]

theorem head_text_append (r : Bytes) : (f.text ++ r).head? = some 91 ↔ f.bracketed = true := by
  rw [List.head?_append_of_ne_nil _ f.text_ne, f.head_text]

/-- A slot that moves is passed over, whatever stands behind it. -/
theorem fieldKeys_bracketed (h : f.bracketed = true) (r : Bytes) : fieldKeys (f.text ++ r) = some [] := by
  rw [fieldKeys, if_pos ((f.head_text_append r).2 h)]

/-- A field that is read on its own. -/
theorem fieldKeys_atEnd {r : Bytes} (hr : AtEnd r) :
    fieldKeys (f.text ++ r) = some (numbers f.owned) := by
  by_cases hb : f.bracketed = true
  · rw [f.fieldKeys_bracketed hb]
    cases f <;> first | rfl | simp [bracketed] at hb
  · rw [fieldKeys, if_neg (mt (f.head_text_append r).1 hb)]
    cases f with
    | one a =>
      have ha : (a : Nat) ≤ 2 ^ 53 := by omega
      rw [text, slotRange_one (by simp [decimal_not_mem, isDigit, hr.not_mem]), tonumber_atEnd hr ha]
      simpa [owned, numbers] using forValues_int (Nat.le_refl a) (by omega)
    | range a b le =>
      have ha : (a : Nat) ≤ 2 ^ 53 := by omega
      have hb : (b : Nat) ≤ 2 ^ 53 := by omega
      have htake : (decimal b ++ r).takeWhile (· ≠ 45) = decimal b ++ r := by
        rw [takeWhile_decimal, List.takeWhile_eq_self_iff.2 (ne_of_not_mem hr.not_mem)]
      rw [text, List.append_assoc, List.cons_append, slotRange_cut (decimal_not_mem (by decide) _), htake,
        tonumber_decimal _ ha, tonumber_atEnd hr hb]
      exact forValues_int le (by omega)
    | migrating slot id => exact absurd rfl hb
    | importing slot id => exact absurd rfl hb

theorem fieldKeys_text : fieldKeys f.text = some (numbers f.owned) := by
  have := f.fieldKeys_atEnd (r := []) (.inl rfl)
  rwa [List.append_nil] at this

/-- A field with more text behind it is no range of slots. -/
theorem fieldKeys_runs (h : f.bracketed = false) {r : Bytes} (hr : Runs r) : fieldKeys (f.text ++ r) = none := by
  rw [fieldKeys, if_neg (mt (f.head_text_append r).1 (by simp [h]))]
  cases f with
  | one a =>
    have hfirst : (slotRange (decimal a ++ r)).1 = none := by rw [slotRange_first, tonumber_runs hr]
    rw [text]
    split
    · rename_i heq
      simp [heq] at hfirst
    · rfl
  | range a b le =>
    rw [text, List.append_assoc, List.cons_append, slotRange_cut (decimal_not_mem (by decide) _), tonumber_runs hr]
    cases tonumber (decimal a) <;> rfl
  | migrating slot id => simp [bracketed] at h
  | importing slot id => simp [bracketed] at h

end SlotField

/-- An address is no range of slots: it has a colon before any `-`. -/
theorem fieldKeys_colon {s : Bytes} (hhead : s.head? ≠ some 91) (h : (58 : UInt8) ∈ s.takeWhile (· ≠ 45))
    (hz : ∀ b ∈ s, b ≠ 0) : fieldKeys s = none := by
  have hfirst : (slotRange s).1 = none := by
    rw [slotRange_first, tonumber_colon h fun b hb => hz b ((List.takeWhile_sublist _).subset hb)]
  rw [fieldKeys, if_neg hhead]
  split
  · rename_i heq
    simp [heq] at hfirst
  · rfl

/-! ## What the loops do -/

/-- The slot map with some keys assigned. -/
def St.assign (s : St W) (keys : List Number) (addr : Node) : St W :=
  { s with slots := fun j => if j ∈ keys.map SlotKey.num then some addr else s.slots j }

@[simp] theorem St.assign_nil (s : St W) (addr : Node) : s.assign [] addr = s := by
  simp [St.assign]

theorem St.assign_mem (s : St W) {keys : List Number} {key : SlotKey} (h : key ∈ keys.map SlotKey.num) (addr : Node) :
    (s.assign keys addr).slots key = some addr := if_pos h

theorem St.assign_not_mem (s : St W) {keys : List Number} {key : SlotKey} (h : key ∉ keys.map SlotKey.num)
    (addr : Node) : (s.assign keys addr).slots key = s.slots key := if_neg h

theorem St.assign_assign (s : St W) (ks ls : List Number) (addr : Node) :
    (s.assign ks addr).assign ls addr = s.assign (ks ++ ls) addr := by
  unfold St.assign
  congr 1
  funext j
  rw [List.map_append]
  by_cases h1 : j ∈ ls.map SlotKey.num
  · rw [if_pos h1, if_pos (List.mem_append_right _ h1)]
  · simp only [List.mem_append, h1, or_false, ite_false]

theorem assignSlot_run {n : Number} (h : n ≠ .nan) (addr : Node) (s : St W) :
    assignSlot (some n) addr s = (.ok (), s.assign [n] addr) := by
  cases n <;> first | exact absurd rfl h | simp [assignSlot, St.assign]

theorem assignAll_run {keys : List Number} (h : Number.nan ∉ keys) (addr : Node) (s : St W) :
    forEach (fun ind => assignSlot (some ind) addr) keys s = (.ok (), s.assign keys addr) := by
  induction keys generalizing s with
  | nil => simp [forEach]
  | cons k keys ih =>
    simp only [List.mem_cons, not_or] at h
    have hk := assignSlot_run (Ne.symm h.1) addr s
    rw [forEach_cons_ok (f := fun ind => assignSlot (some ind) addr) hk, ih h.2, St.assign_assign]
    rfl

/-- A field that can be read assigns its keys. -/
theorem assignField_ok {slot : Bytes} {keys : List Number} (h : fieldKeys slot = some keys) (addr : Node)
    (s : St W) : assignField addr slot s = (.ok (), s.assign keys addr) := by
  unfold fieldKeys at h
  unfold assignField assignRange
  by_cases hb : slot.head? = some 91
  · rw [if_pos hb] at h ⊢
    cases h
    simp
  · rw [if_neg hb] at h ⊢
    rcases hr : slotRange slot with ⟨_ | first, _ | last⟩
    all_goals rw [hr] at h
    all_goals try cases h
    dsimp only at h ⊢
    rw [h]
    exact assignAll_run (forLoop_not_nan _ h) addr s

/-- A field that cannot be read raises. -/
theorem assignField_error {slot : Bytes} (h : fieldKeys slot = none) (addr : Node) (s : St W) :
    (assignField addr slot s).1 ≠ .ok () := by
  unfold fieldKeys at h
  unfold assignField assignRange
  by_cases hb : slot.head? = some 91
  · rw [if_pos hb] at h
    cases h
  · rw [if_neg hb] at h ⊢
    rcases hr : slotRange slot with ⟨_ | first, _ | last⟩
    all_goals rw [hr] at h
    all_goals try simp
    dsimp only at h
    rw [h]
    simp

/-- Fields that can all be read. -/
theorem assignFields_run {fs : List Bytes} {keys : Bytes → List Number} (h : ∀ f ∈ fs, fieldKeys f = some (keys f))
    (addr : Node) (s : St W) : forEach (assignField addr) fs s = (.ok (), s.assign (fs.flatMap keys) addr) := by
  induction fs generalizing s with
  | nil => simp [forEach]
  | cons f fs ih =>
    rw [forEach_cons_ok (assignField_ok (h f (List.mem_cons_self ..)) addr s),
      ih fun g hg => h g (List.mem_cons_of_mem _ hg), St.assign_assign]
    rfl

end NgProxy.Cluster
