/-
How long a reply may get. The splitter gives at most 1001 parts, and what is left over is read as if it
were one slot field: a line with more fields, or a reply with more lines, makes `update_cluster_nodes`
raise, unless the left over text happens to start with a bracket.
-/
import NgProxy.Cluster.NodesMap

namespace NgProxy.Cluster

open Lua Codec Prog Text

variable {W : Type}

/-! ## When a line is read to its end -/

/-- Every field from the ninth on can be read. -/
def Readable (line : Bytes) : Prop := ∀ f ∈ (splitLoop (bytes " ") 1000 line).drop 8, fieldKeys f ≠ none

theorem assignField_ok_iff (addr : Node) (slot : Bytes) (s : St W) :
    (assignField addr slot s).1 = .ok () ↔ fieldKeys slot ≠ none := by
  rcases h : fieldKeys slot with _ | keys
  · simpa using assignField_error h addr s
  · simp [assignField_ok h]

theorem updateLine_ok_iff (node : Node) (line : Bytes) (s : St W) :
    (updateLine node line s).1 = .ok () ↔ Readable line := by
  unfold updateLine updateFields Readable
  generalize splitLoop (bytes " ") 1000 line = fields
  rcases h : fields[1]? with _ | addrStr
  · have hlen := List.getElem?_eq_none_iff.1 h
    have hdrop : fields.drop 8 = [] := List.drop_eq_nil_iff.2 (by omega)
    simp [hdrop]
  · obtain ⟨s', hadd⟩ : ∃ s', (when (addrStr ≠ bytes ":0") (appendNode (lineAddr node addrStr)) : Run W Unit) s =
        (.ok (), s') := by
      by_cases hz : addrStr = bytes ":0" <;> simp [hz, appendNode]
    show ((do _; _ : Run W Unit) s).1 = _ ↔ _
    rw [bind_ok hadd]
    exact forEach_ok_iff (fun f _ s => assignField_ok_iff _ f s) s'

theorem updateClusterNodes_ok_iff (node : Node) (text : Bytes) (s : St W) :
    (updateClusterNodes (.str text) node s).1 = .ok () ↔ ∀ line ∈ splitLoop (bytes "\n") 1000 text, Readable line :=
  forEach_ok_iff (fun line _ s => updateLine_ok_iff node line s) s

/-! ## One line, with what the splitter leaves behind it -/

/-- An IP address as Redis prints it. -/
def Line.Ip (l : Line) : Prop := ∀ host ∈ l.address.host?, ∀ b ∈ host, isHex b = true ∨ b = 46 ∨ b = 58

/-- The last field the splitter cuts off is in brackets. -/
def Line.Bracketed (l : Line) : Prop := ∃ f, l.slots[992]? = some f ∧ f.bracketed = true

/-- The line has at most 1001 fields, or the last one that is cut off is in brackets. -/
def Line.Fits (l : Line) : Prop := l.fields.length ≤ 1001 ∨ l.Bracketed

theorem join_nonzero (ps : List Bytes) (h : ∀ p ∈ ps, ∀ b ∈ p, isPrint b = true) :
    ∀ b ∈ [32].intercalate ps, b ≠ (0 : UInt8) := by
  intro b hb
  rcases mem_join hb with rfl | ⟨p, hp, hb⟩
  · decide
  · exact isPrint_ne (h p hp b hb) (by decide)

theorem Line.text_nonzero (l : Line) : ∀ b ∈ l.text, b ≠ 0 := join_nonzero l.fields l.fields_print

theorem nodesText_nonzero (lines : List Line) : ∀ b ∈ nodesText lines, b ≠ 0 := by
  intro b hb
  obtain ⟨l, -, hb⟩ := List.mem_flatMap.1 hb
  rcases List.mem_append.1 hb with hb | hb
  · exact l.text_nonzero b hb
  · rw [List.mem_singleton.1 hb]
    decide

/-- The fields before the slots. -/
def Line.front (l : Line) : List Bytes := l.id.text :: l.address.text :: l.info.map Info.text

theorem Line.fields_front (l : Line) : l.fields = l.front ++ l.slots.map SlotField.text := rfl

theorem Line.length_front (l : Line) : l.front.length = 8 := by
  simp [Line.front, l.info_length]

/-- A slot field starts with a digit or a bracket. -/
theorem SlotField.head_cases (f : SlotField) : ∃ d t, f.text = d :: t ∧ isSpace d = false ∧ d ≠ 45 := by
  have hdec : ∀ n r, ∃ d t, decimal n ++ r = d :: t ∧ isSpace d = false ∧ d ≠ 45 := by
    intro n r
    obtain ⟨d, t, hd⟩ := List.exists_cons_of_ne_nil (decimal_ne_nil n)
    have hdig := decimal_isDigit n d (by simp [hd])
    refine ⟨d, t ++ r, by simp [hd], ?_, ?_⟩
    · by_contra hs
      have := (space_not_digit (b := d) (by simpa using hs)).1
      simp [isDigitOf, hdig] at this
    · rintro rfl
      exact absurd hdig (by decide)
  cases f with
  | one a => simpa [SlotField.text] using hdec a []
  | range a b le => exact hdec a _
  | migrating slot id => exact ⟨91, _, rfl, by decide, by decide⟩
  | importing slot id => exact ⟨91, _, rfl, by decide, by decide⟩

/-- More slots behind a field. -/
theorem runs_behind {fs : List SlotField} (hne : fs ≠ []) {tail : Bytes} (htail : ∀ b ∈ tail, b ≠ 0) :
    Runs (behind 32 (fs.map SlotField.text) ++ tail) := by
  obtain ⟨f, fs, rfl⟩ := List.exists_cons_of_ne_nil hne
  obtain ⟨d, t, hd, hspace, hminus⟩ := f.head_cases
  have hz := join_nonzero ((f :: fs).map SlotField.text) fun p hp => by
    obtain ⟨g, -, rfl⟩ := List.mem_map.1 hp
    exact g.text_print
  constructor
  · intro b hb
    rcases List.mem_append.1 hb with hb | hb
    · rcases List.mem_cons.1 hb with rfl | hb
      · decide
      · exact hz b hb
    · exact htail b hb
  · obtain ⟨t', ht'⟩ : ∃ t', [32].intercalate ((f :: fs).map SlotField.text) = d :: t' := by
      cases fs <;> simp [List.intercalate, hd]
    refine ⟨32, d, t' ++ tail, ?_, by decide, hspace, hminus⟩
    show 32 :: [32].intercalate ((f :: fs).map SlotField.text) ++ tail = _
    rw [ht']
    rfl

theorem blank_not_mem {p : Bytes} (h : ∀ b ∈ p, isPrint b = true) : (32 : UInt8) ∉ p :=
  fun hb => isPrint_ne (h 32 hb) (by decide) rfl

theorem slot_readable (f : SlotField) : fieldKeys f.text ≠ none := by simp [f.fieldKeys_text]

/-- A line with so many fields that the splitter stops at one of its slots. -/
theorem readable_capped (l : Line) {f : SlotField} (hf : l.slots[992]? = some f) {tail : Bytes} :
    Readable (l.text ++ tail) ↔
      fieldKeys (f.text ++ (behind 32 ((l.slots.drop 993).map SlotField.text) ++ tail)) ≠ none := by
  have hlen : 992 < l.slots.length := (List.getElem?_eq_some_iff.1 hf).1
  have hslots : l.slots = l.slots.take 992 ++ f :: l.slots.drop 993 := by
    rw [← (List.getElem?_eq_some_iff.1 hf).2, List.getElem_cons_drop, List.take_append_drop]
  have hpre : (l.front ++ (l.slots.take 992).map SlotField.text).length = 1000 := by
    simp [l.length_front]
    omega
  have htext : l.text = [32].intercalate ((l.front ++ (l.slots.take 992).map SlotField.text) ++
      f.text :: (l.slots.drop 993).map SlotField.text) := by
    rw [Line.text, l.fields_front]
    conv_lhs => rw [hslots]
    simp
  have hprint : ∀ p ∈ l.front ++ (l.slots.take 992).map SlotField.text, (32 : UInt8) ∉ p := by
    intro p hp
    refine blank_not_mem (l.fields_print p ?_)
    rw [l.fields_front]
    refine List.mem_append.2 ((List.mem_append.1 hp).imp_right fun h => ?_)
    exact (List.map_subset _ (List.take_subset _ _)) h
  unfold Readable
  rw [htext, join_cut, show bytes " " = [32] from rfl, splitLoop_join hprint _ (by omega), hpre, splitLoop,
    List.append_assoc, List.drop_left' l.length_front]
  simp only [List.forall_mem_append, List.forall_mem_map, List.forall_mem_singleton]
  exact and_iff_right fun g _ => slot_readable g

/-- A line that is split completely: its last field takes what stands behind the line. -/
theorem split_last (l : Line) (hlen : l.slots.length ≤ 993) (tail : Bytes) :
    ∃ pre last, l.fields = pre ++ [last] ∧
      splitLoop (bytes " ") 1000 (l.text ++ tail) = pre ++ splitLoop [32] (993 - l.slots.length) (last ++ tail) := by
  have hne : l.fields ≠ [] := by simp [Line.fields]
  refine ⟨l.fields.dropLast, l.fields.getLast hne, (List.dropLast_append_getLast hne).symm, ?_⟩
  have hprint : ∀ p ∈ l.fields.dropLast, (32 : UInt8) ∉ p := fun p hp =>
    blank_not_mem (l.fields_print p (List.dropLast_subset _ hp))
  have htext : l.text ++ tail = [32].intercalate (l.fields.dropLast ++ [l.fields.getLast hne ++ tail]) := by
    rw [Line.text]
    conv_lhs => rw [← List.dropLast_append_getLast hne]
    exact join_cut 32 _ _ [] tail
  rw [htext, show bytes " " = [32] from rfl, splitLoop_join hprint _ (by simp; omega)]
  simp only [List.length_dropLast, l.length_fields]
  congr 2
  omega

/-- More stands behind the field at which the splitter stops: then that is read only in brackets. -/
theorem readable_cut (l : Line) (hlen : 992 < l.slots.length) {tail : Bytes}
    (hruns : Runs (behind 32 ((l.slots.drop 993).map SlotField.text) ++ tail)) :
    Readable (l.text ++ tail) ↔ l.Bracketed := by
  have hf : l.slots[992]? = some l.slots[992] := List.getElem?_eq_getElem hlen
  rw [readable_capped l hf, Line.Bracketed]
  cases hb : l.slots[992].bracketed with
  | true => simp [SlotField.fieldKeys_bracketed _ hb, hf, hb]
  | false =>
    rw [SlotField.fieldKeys_runs _ hb hruns]
    simp [hf, hb]

/-- A line that is split completely, at the end of the reply. -/
theorem readable_short (l : Line) (hlen : l.slots.length ≤ 993) {tail : Bytes} (htail : AtEnd tail) :
    Readable (l.text ++ tail) := by
  obtain ⟨pre, last, hfields, hsplit⟩ := split_last l hlen tail
  have hlast : (32 : UInt8) ∉ last ++ tail := by
    rw [List.mem_append, not_or]
    refine ⟨blank_not_mem (l.fields_print last (by simp [hfields])), ?_⟩
    rcases htail with rfl | rfl <;> simp
  unfold Readable
  rw [hsplit, splitLoop_whole hlast]
  -- the last field is a slot, or the eighth one and not read
  rcases List.eq_nil_or_concat l.slots with hs | ⟨slots, f, hs⟩
  · have hpre : (pre ++ [last ++ tail]).length = 8 := by
      have := congrArg List.length hfields
      simp [hs] at this
      simp
      omega
    rw [List.drop_of_length_le (by omega)]
    simp
  · have heq : pre ++ [last] = (l.front ++ slots.map SlotField.text) ++ [f.text] := by
      rw [← hfields, l.fields_front, hs]
      simp
    obtain ⟨rfl, hl⟩ := List.append_inj' heq rfl
    rw [List.singleton_inj] at hl
    rw [hl, List.append_assoc, List.drop_left' l.length_front]
    simp only [List.forall_mem_append, List.forall_mem_map, List.forall_mem_singleton]
    refine ⟨fun g _ => slot_readable g, ?_⟩
    rw [f.fieldKeys_atEnd htail]
    simp

/-- The line feed at the end of a reply does no harm. -/
theorem readable_atEnd (l : Line) (tail : Bytes) (htail : AtEnd tail) : Readable (l.text ++ tail) ↔ l.Fits := by
  by_cases hlen : l.slots.length ≤ 993
  · exact iff_of_true (readable_short l hlen htail) (.inl (by simp; omega))
  · have hz : ∀ b ∈ tail, b ≠ 0 := by rcases htail with rfl | rfl <;> simp
    have hlong : ¬ l.fields.length ≤ 1001 := by
      simp
      omega
    rw [Line.Fits, or_iff_right hlong]
    exact readable_cut l (by omega) (runs_behind (by simp; omega) hz)

/-- The colon of an address comes before any `-`, whatever stands behind the address. -/
theorem address_unreadable {l : Line} (hip : l.Ip) (rest : Bytes) (hz : ∀ b ∈ rest, b ≠ 0) :
    fieldKeys (l.address.text ++ rest) = none := by
  have hhex : ∀ b : UInt8, isHex b = true ∨ b = 46 ∨ b = 58 → b ≠ 45 ∧ b ≠ 91 := by
    intro b hb
    refine ⟨?_, ?_⟩
    all_goals
      rintro rfl
      revert hb
      decide
  have hsplit : ∃ host r, l.address.text ++ rest = host ++ 58 :: r ∧ ∀ b ∈ host, b ≠ 45 ∧ b ≠ 91 := by
    cases ha : l.address with
    | unknown => exact ⟨[], 48 :: rest, rfl, by simp⟩
    | known host port plain le named =>
      exact ⟨host, decimal port ++ rest, by simp [Address.text], fun b hb =>
        hhex b (hip host (by simp [ha, Address.host?]) b hb)⟩
  have hzero : ∀ b ∈ l.address.text ++ rest, b ≠ 0 := by
    intro b hb
    rcases List.mem_append.1 hb with hb | hb
    · exact isPrint_ne (l.address.text_print b hb) (by decide)
    · exact hz b hb
  obtain ⟨host, r, heq, hhost⟩ := hsplit
  rw [heq] at hzero ⊢
  refine fieldKeys_colon ?_ ?_ hzero
  · rcases host with _ | ⟨b, host⟩
    · simp
    · simpa using (hhost b (List.mem_cons_self ..)).2
  · rw [List.takeWhile_append_of_pos fun b hb => decide_eq_true (hhost b hb).1]
    simp

theorem isPrint_not_space {b : UInt8} (h : isPrint b = true) : isSpace b = false := by
  simp only [isPrint, isSpace, Bool.and_eq_true, Bool.or_eq_false_iff, beq_eq_false_iff_ne, Bool.and_eq_false_iff,
    decide_eq_true_eq, decide_eq_false_iff_not, UInt8.le_iff_toNat_le, UInt8.reduceToNat] at h ⊢
  refine ⟨?_, by omega⟩
  rintro rfl
  exact absurd h.1 (by decide)

/-- Another line behind the line feed starts with its name and its address. -/
theorem nodesText_cons (next : Line) (lines : List Line) :
    ∃ r, nodesText (next :: lines) = next.id.text ++ 32 :: (next.address.text ++ 32 :: r) := by
  obtain ⟨i, info, hi⟩ : ∃ i info, next.info = i :: info :=
    List.exists_cons_of_ne_nil fun h => by simpa [h] using next.info_length
  refine ⟨[32].intercalate ((i :: info).map Info.text ++ next.slots.map SlotField.text) ++ 10 :: nodesText lines, ?_⟩
  simp only [nodesText, Line.text, Line.fields, hi, List.flatMap_cons, List.map_cons, List.cons_append,
    List.intercalate_cons_cons, List.append_assoc, List.nil_append]

theorem runs_nodesText (next : Line) (lines : List Line) : Runs (10 :: nodesText (next :: lines)) := by
  obtain ⟨r, hr⟩ := nodesText_cons next lines
  obtain ⟨d, id, hid⟩ := List.exists_cons_of_ne_nil next.id.ne
  have hhex := next.id.hex d (by simp [hid])
  constructor
  · intro b hb
    rcases List.mem_cons.1 hb with rfl | hb
    · decide
    · exact nodesText_nonzero _ b hb
  · refine ⟨10, d, id ++ 32 :: (next.address.text ++ 32 :: r), by simp [hr, hid], by decide, ?_, ?_⟩
    · exact isPrint_not_space (isHex_print hhex)
    · rintro rfl
      exact absurd hhex (by decide)

/-- A line that is split completely, and another one behind it: the splitter comes to the next address. -/
theorem not_readable_more (l next : Line) (hlen : l.slots.length < 993) (hip : next.Ip) (lines : List Line) :
    ¬ Readable (l.text ++ 10 :: nodesText (next :: lines)) := by
  intro h
  obtain ⟨r, hr⟩ := nodesText_cons next lines
  have hz : ∀ b ∈ 32 :: r, b ≠ 0 := fun b hb => nodesText_nonzero (next :: lines) b (by
    rw [hr]
    exact List.mem_append_right _ (List.mem_cons_of_mem _ (List.mem_append_right _ hb)))
  obtain ⟨pre, last, hfields, hsplit⟩ := split_last l (by omega) (10 :: nodesText (next :: lines))
  have hlast : (32 : UInt8) ∉ last ++ 10 :: next.id.text := by
    rw [List.mem_append, List.mem_cons, not_or, not_or]
    exact ⟨blank_not_mem (l.fields_print last (by simp [hfields])), by decide, blank_not_mem next.id.print⟩
  obtain ⟨m, hm⟩ : ∃ m, 993 - l.slots.length = m + 1 := ⟨992 - l.slots.length, by omega⟩
  -- the field behind the cut is the address, alone or with all that is left
  obtain ⟨x, xs, hxs, hx⟩ : ∃ x xs, splitLoop [32] m (next.address.text ++ 32 :: r) = x :: xs ∧ fieldKeys x = none := by
    cases m with
    | zero => exact ⟨_, [], rfl, address_unreadable hip _ hz⟩
    | succ m =>
      rw [splitLoop_cut (blank_not_mem next.address.text_print)]
      exact ⟨_, _, rfl, by simpa using address_unreadable hip [] (by simp)⟩
  have hcut : splitLoop (bytes " ") 1000 (l.text ++ 10 :: nodesText (next :: lines)) =
      (pre ++ [last ++ 10 :: next.id.text]) ++ x :: xs := by
    have htext : last ++ 10 :: nodesText (next :: lines) =
        (last ++ 10 :: next.id.text) ++ 32 :: (next.address.text ++ 32 :: r) := by simp [hr]
    rw [hsplit, hm, htext, splitLoop_cut hlast, hxs]
    simp
  have hpre : 8 ≤ (pre ++ [last ++ 10 :: next.id.text]).length := by
    have := congrArg List.length hfields
    simp at this
    simp
    omega
  refine h x ?_ hx
  rw [hcut, List.drop_append_of_le_length hpre]
  simp

/-- With another line behind it a line can only be read when the splitter stops within it, at a field
in brackets. -/
theorem readable_more (l next : Line) (hip : next.Ip) (lines : List Line) :
    Readable (l.text ++ 10 :: nodesText (next :: lines)) ↔ l.Bracketed := by
  by_cases hlen : l.slots.length < 993
  · refine iff_of_false (not_readable_more l next hlen hip lines) ?_
    rintro ⟨f, hf, -⟩
    have := (List.getElem?_eq_some_iff.1 hf).1
    omega
  · refine readable_cut l (by omega) ?_
    have htail := runs_nodesText next lines
    by_cases h993 : l.slots.length = 993
    · rw [List.drop_of_length_le (by omega)]
      exact htail
    · exact runs_behind (by simp; omega) htail.nonzero

/-! ## The whole reply -/

/-- Every line that is cut off fits, and so does the one the others are left behind. -/
def Fits (lines : List Line) : Prop :=
  (∀ l ∈ lines.take 1001, l.Fits) ∧ (1001 < lines.length → ∃ l, lines[1000]? = some l ∧ l.Bracketed)

theorem nodesText_cut (pre : List Line) (l : Line) (rest : List Line) :
    nodesText (pre ++ l :: rest) = [10].intercalate (pre.map Line.text ++ [l.text ++ 10 :: nodesText rest]) := by
  induction pre with
  | nil => simp [nodesText, List.intercalate]
  | cons p pre ih =>
    rw [List.cons_append, nodesText, List.flatMap_cons, ← nodesText, ih]
    cases pre <;> simp [List.intercalate]

theorem readable_nil : Readable [] := by
  intro f hf
  exact absurd hf (by simp [bytes, splitLoop, breakAt])

theorem text_readable (l : Line) : Readable l.text ↔ l.Fits := by
  simpa using readable_atEnd l [] (.inl rfl)

theorem readable_lines {lines : List Line} (hip : ∀ l ∈ lines, l.Ip) :
    (∀ line ∈ splitLoop (bytes "\n") 1000 (nodesText lines), Readable line) ↔ Fits lines := by
  by_cases hlen : lines.length ≤ 1000
  · rw [nodesText_split hlen, Fits, List.take_of_length_le (by omega)]
    simp only [List.forall_mem_append, List.forall_mem_map, List.forall_mem_singleton, readable_nil, and_true,
      text_readable]
    exact (and_iff_left fun h => absurd h (by omega)).symm
  · -- the line at which the splitter stops
    obtain ⟨l, hl⟩ : ∃ l, lines[1000]? = some l := ⟨_, List.getElem?_eq_getElem (by omega)⟩
    have hlines : lines = lines.take 1000 ++ l :: lines.drop 1001 := by
      rw [← (List.getElem?_eq_some_iff.1 hl).2, List.getElem_cons_drop, List.take_append_drop]
    have htake : lines.take 1001 = lines.take 1000 ++ [l] := by
      rw [List.take_add_one, hl]
      rfl
    have hpre : ((lines.take 1000).map Line.text).length = 1000 := by
      simp
      omega
    have hfree : ∀ p ∈ (lines.take 1000).map Line.text, (10 : UInt8) ∉ p := by
      simp only [List.forall_mem_map]
      exact fun m _ => m.text_not_mem
    have hsplit : splitLoop (bytes "\n") 1000 (nodesText lines) =
        (lines.take 1000).map Line.text ++ [l.text ++ 10 :: nodesText (lines.drop 1001)] := by
      conv_lhs => rw [hlines]
      rw [nodesText_cut, show bytes "\n" = [10] from rfl, splitLoop_join hfree _ (by omega), hpre]
      rfl
    rw [hsplit, Fits, htake]
    simp only [List.forall_mem_append, List.forall_mem_map, List.forall_mem_singleton, text_readable, hl,
      Option.some.injEq, exists_eq_left', and_assoc]
    refine and_congr_right fun _ => ?_
    rcases hd : lines.drop 1001 with _ | ⟨next, rest⟩
    · have hshort := List.drop_eq_nil_iff.1 hd
      rw [nodesText, List.flatMap_nil, readable_atEnd l [10] (.inr rfl)]
      exact (and_iff_left fun h => absurd h (by omega)).symm
    · have hmem : next ∈ lines := List.mem_of_mem_drop (by rw [hd]; exact List.mem_cons_self ..)
      have hlong : 1001 < lines.length := by
        by_contra h
        simp [List.drop_of_length_le (Nat.le_of_not_lt h)] at hd
      rw [readable_more l next (hip next hmem) rest]
      exact ⟨fun h => ⟨.inr h, fun _ => h⟩, fun h => h.2 hlong⟩

/-- A reply is applied without an error exactly when it fits. -/
theorem updateClusterNodes_returns_iff (node : Node) (lines : List Line) (hip : ∀ l ∈ lines, l.Ip) (s : St W) :
    (updateClusterNodes (.str (nodesText lines)) node s).1 = .ok () ↔ Fits lines :=
  (updateClusterNodes_ok_iff node _ s).trans (readable_lines hip)

theorem loopback_ip : ∀ l ∈ loopback (bytes "127.0.0.1") (List.all_eq_true.1 rfl) (by decide), l.Ip := by
  simp [loopback, masterLine, Line.Ip, Address.host?, bytes, isHex, isDigit]

theorem updateClusterNodes_returns_loopback :
    (updateClusterNodes (.str (nodesText (loopback (bytes "127.0.0.1") (List.all_eq_true.1 rfl) (by decide))))
      ⟨bytes "10.0.0.1", some (.int 7000)⟩ blank).1 = .ok () :=
  (updateClusterNodes_returns_iff _ _ loopback_ip _).2
    ⟨by simp [loopback, masterLine, Line.Fits], by simp [loopback]⟩

theorem scattered_lt (i : Nat) : 2 * i % 16384 < 16384 := by omega

/-- A node that owns every other one of the first slots. -/
def scattered : Line :=
  masterLine ⟨bytes "myself,master", myself_plain⟩ .unknown
    ((List.range 994).map fun i => .one ⟨2 * i % 16384, scattered_lt i⟩)

/-- 994 slots with gaps between them are enough: two of them are read as one number. -/
theorem scattered_raises :
    (updateClusterNodes (.str (nodesText [scattered])) ⟨bytes "10.0.0.1", some (.int 7000)⟩ blank).1 ≠ .ok () := by
  have hip : ∀ l ∈ [scattered], l.Ip := by simp [scattered, masterLine, Line.Ip, Address.host?]
  rw [ne_eq, updateClusterNodes_ok_iff, readable_lines hip]
  rintro ⟨hfits, -⟩
  rcases hfits scattered (by simp) with hlen | ⟨f, hf, hb⟩
  · simp [scattered, masterLine] at hlen
  · have hslot : scattered.slots[992]? = some (.one ⟨2 * 992 % 16384, scattered_lt 992⟩) := by
      simp only [scattered, masterLine, List.getElem?_map]
      rw [List.getElem?_range (by decide), Option.map_some]
    rw [hslot] at hf
    cases hf
    cases hb

end NgProxy.Cluster
