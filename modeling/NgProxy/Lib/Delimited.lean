/-
Programs that read a buffer from its start and know from the bytes themselves where to stop. Such a program
is given the end of the buffer; whether the buffer goes on behind the bytes it needs makes no difference to
it, and in a buffer that ends earlier it refuses.
-/
import NgProxy.Lib.Scan

namespace NgProxy.Memory

/-- The bytes of a buffer that ends at `last` are those of `mem`, as far as they come before `stop`. -/
def Shares (mem mem' : Mem) (stop last : Int) : Prop := ∀ i, 0 ≤ i → i < stop → i < last → mem' i = mem i

theorem Shares.mono {mem mem' : Mem} {stop stop' last : Int} (h : Shares mem mem' stop last) (hle : stop' ≤ stop) :
    Shares mem mem' stop' last := fun i h₀ h₁ h₂ => h i h₀ (by omega) h₂

theorem Shares.slice_eq {mem mem' : Mem} {stop last p : Int} {n : Nat} (h : Shares mem mem' stop last) (hp : 0 ≤ p)
    (hn : p + n ≤ stop) (hlast : p + n ≤ last) : slice mem' p n = slice mem p n := by
  refine List.map_congr_left fun i hi => ?_
  have := List.mem_range.1 hi
  exact h _ (by omega) (by omega) (by omega)

theorem shares_load {b b' : Bytes} {outside outside' : Mem} {stop : Int}
    (h : ∀ i : Nat, (i : Int) < stop → i < b'.length → b'[i]? = b[i]?) :
    Shares (load b outside) (load b' outside') stop b'.length := by
  intro i h₀ hstop hlast
  have hsame := h i.toNat (by omega) (by omega)
  have hin : b'[i.toNat]? = some b'[i.toNat] := List.getElem?_eq_getElem (by omega)
  rw [load, load, if_pos h₀, if_pos h₀, List.getD_eq_getElem?_getD, List.getD_eq_getElem?_getD, ← hsame, hin]
  rfl

/-- The bytes of `mem` before `stop` make the program return `a` in every buffer that holds them. In one that
ends before `stop` it returns something `refused`; that it ends before `src` is left open. All accesses
satisfy `P`. -/
def Delimited {ν α : Type} (P : Access ν → Prop) (refused : α → Prop) (f : Int → Scan ν α) (mem : Mem)
    (src stop : Int) (a : α) : Prop :=
  ∀ last mem', src ≤ last → Shares mem mem' stop last →
    Scan.All P (f last) mem' ∧ (stop ≤ last → (f last).value mem' = a) ∧ (last < stop → refused ((f last).value mem'))

namespace Delimited

open Scan

variable {ν α β : Type} {P : Access ν → Prop} {refused : α → Prop} {f g : Int → Scan ν α} {mem : Mem}
  {src mid stop p : Int} {a bad : α}

theorem congr (hfg : ∀ last, src ≤ last → f last = g last) (h : Delimited P refused g mem src stop a) :
    Delimited P refused f mem src stop a := by
  intro last mem' hlast hsame
  rw [hfg last hlast]
  exact h last mem' hlast hsame

theorem mono (h : Delimited P refused f mem src stop a) (hle : src ≤ p) : Delimited P refused f mem p stop a :=
  fun last mem' hlast => h last mem' (hle.trans hlast)

/-- Nothing more is needed. -/
theorem settled {x : Scan ν α} (h : ∀ last mem', stop ≤ last → Shares mem mem' stop last →
    All P x mem' ∧ x.value mem' = a) : Delimited P refused (fun _ => x) mem stop stop a := by
  intro last mem' hlast hsame
  obtain ⟨hall, hval⟩ := h last mem' hlast hsame
  exact ⟨hall, fun _ => hval, fun hlt => absurd hlast (not_le.2 hlt)⟩

theorem pure : Delimited P refused (fun _ => pure a) mem stop stop a := settled fun _ _ _ _ => ⟨all_pure _, rfl⟩

/-- A byte that is read unless the buffer ends in front of it. -/
theorem read {k : Int → UInt8 → Scan ν α} (hP : P (.read p)) (hbad : refused bad) (h₀ : 0 ≤ p) (hp : p < stop)
    (h : Delimited P refused (fun last => k last (mem p)) mem (p + 1) stop a) :
    Delimited P refused (fun last => if last ≤ p then Pure.pure bad else Scan.read p >>= k last) mem src stop a := by
  intro last mem' _ hsame
  by_cases hend : last ≤ p
  · simp only [if_pos hend]
    exact ⟨all_pure _, fun hle => by omega, fun _ => hbad⟩
  · simp only [if_neg hend]
    have hbyte : mem' p = mem p := hsame p h₀ hp (not_le.1 hend)
    have hrest := h last mem' (by omega) hsame
    rw [← hbyte] at hrest
    exact ⟨all_read_bind.2 ⟨hP, hrest.1⟩, hrest.2⟩

/-- An empty buffer is refused beforehand. -/
theorem nonempty (hbad : refused bad) (hlt : p < stop) (h : Delimited P refused f mem src stop a) :
    Delimited P refused (fun last => if last ≤ p then Pure.pure bad else f last) mem src stop a := by
  intro last mem' hlast hsame
  by_cases hend : last ≤ p
  · simp only [if_pos hend]
    exact ⟨all_pure _, fun hle => by omega, fun _ => hbad⟩
  · simp only [if_neg hend]
    exact h last mem' hlast hsame

theorem note {x : ν} (hP : P (.note x)) (h : Delimited P refused f mem src stop a) :
    Delimited P refused (fun last => Scan.note x >>= fun _ => f last) mem src stop a := by
  intro last mem' hlast hsame
  obtain ⟨hall, hval⟩ := h last mem' hlast hsame
  exact ⟨all_bind.2 ⟨all_note.2 hP, hall⟩, hval⟩

/-- What comes behind the check that the buffer is long enough. -/
theorem guard {x : Scan ν α} (hbad : refused bad) (h : ∀ last mem', stop ≤ last → Shares mem mem' stop last →
    All P x mem' ∧ x.value mem' = a) :
    Delimited P refused (fun last => if last < stop then Pure.pure bad else x) mem src stop a := by
  intro last mem' _ hsame
  by_cases hshort : last < stop
  · simp only [if_pos hshort]
    exact ⟨all_pure _, fun hle => absurd hshort (not_lt.2 hle), fun _ => hbad⟩
  · simp only [if_neg hshort]
    obtain ⟨hall, hval⟩ := h last mem' (not_lt.1 hshort) hsame
    exact ⟨hall, fun _ => hval, fun hlt => absurd hlt hshort⟩

/-- One program behind another: when the first refuses, so does the whole, without another access. -/
theorem bind {refused' : β → Prop} {x : Int → Scan ν β} {k : Int → β → Scan ν α} {b : β}
    (hx : Delimited P refused' x mem src mid b) (hle : mid ≤ stop)
    (hk : Delimited P refused (fun last => k last b) mem mid stop a)
    (hrefused : ∀ last b, refused' b → ∃ bad, k last b = Pure.pure bad ∧ refused bad) :
    Delimited P refused (fun last => x last >>= k last) mem src stop a := by
  intro last mem' hlast hsame
  obtain ⟨hall, hval, hcut⟩ := hx last mem' hlast (hsame.mono hle)
  rw [all_bind, value_bind]
  by_cases hmid : mid ≤ last
  · -- all that the first one needs is there
    rw [hval hmid]
    obtain ⟨hall', hrest⟩ := hk last mem' hmid hsame
    exact ⟨⟨hall, hall'⟩, hrest⟩
  · obtain ⟨bad, hpure, hbad⟩ := hrefused last _ (hcut (not_le.1 hmid))
    rw [hpure]
    exact ⟨⟨hall, all_pure _⟩, fun hstop => absurd (hle.trans hstop) hmid, fun _ => hbad⟩

theorem map (refused' : β → Prop) {x : Int → Scan ν β} {f : β → α} {b : β}
    (hx : Delimited P refused' x mem src stop b) (hrefused : ∀ b, refused' b → refused (f b)) :
    Delimited P refused (fun last => f <$> x last) mem src stop (f b) := by
  intro last mem' hlast hsame
  obtain ⟨hall, hval, hcut⟩ := hx last mem' hlast hsame
  rw [all_map, value_map]
  exact ⟨hall, fun hle => congrArg f (hval hle), fun hlt => hrefused _ (hcut hlt)⟩

end Delimited

end NgProxy.Memory
