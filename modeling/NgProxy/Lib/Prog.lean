/-
Programs over a state that may raise: a raise ends the program and keeps the state reached so far.
What a program does to the state, however it ends, is a relation between the states before and
after it; a reflexive and transitive one passes through every construct. That a program does not
raise is a triple of pre- and postcondition, and so is what holds if it does not.
-/
import Mathlib.Order.Defs.Unbundled

namespace NgProxy

/-- A program over the state `σ` that returns `α` or raises `ε`. -/
def Prog (ε σ α : Type) := σ → Except ε α × σ

namespace Prog

variable {ε σ α β : Type}

instance : Monad (Prog ε σ) where
  pure a := fun s => (.ok a, s)
  bind x f := fun s =>
    match x s with
    | (.ok a, s) => f a s
    | (.error e, s) => (.error e, s)

def raise (e : ε) : Prog ε σ α := fun s => (.error e, s)

def get : Prog ε σ σ := fun s => (.ok s, s)

def modify (f : σ → σ) : Prog ε σ Unit := fun s => (.ok (), f s)

/-- A computation that may raise and does not touch the state. -/
def lift (x : Except ε α) : Prog ε σ α := fun s => (x, s)

/-- `x` if `c` holds. -/
def when (c : Bool) (x : Prog ε σ Unit) : Prog ε σ Unit := if c then x else pure ()

/-- `f` on every element, in order. -/
def forEach (f : α → Prog ε σ Unit) : List α → Prog ε σ Unit
  | [] => pure ()
  | a :: l => do
    f a
    forEach f l

/-- A program over a part of the state. -/
def zoom {ρ : Type} (g : σ → ρ) (put : ρ → σ → σ) (x : Prog ε ρ α) : Prog ε σ α :=
  fun s => ((x (g s)).1, put (x (g s)).2 s)

@[simp] theorem pure_run (a : α) (s : σ) : (pure a : Prog ε σ α) s = (.ok a, s) := rfl

@[simp] theorem raise_run (e : ε) (s : σ) : (raise e : Prog ε σ α) s = (.error e, s) := rfl

@[simp] theorem get_run (s : σ) : (get : Prog ε σ σ) s = (.ok s, s) := rfl

@[simp] theorem modify_run (f : σ → σ) (s : σ) : (modify f : Prog ε σ Unit) s = (.ok (), f s) := rfl

@[simp] theorem lift_run (x : Except ε α) (s : σ) : (lift x : Prog ε σ α) s = (x, s) := rfl

@[simp] theorem when_true (x : Prog ε σ Unit) : when true x = x := rfl

@[simp] theorem when_false (x : Prog ε σ Unit) : when false x = pure () := rfl

theorem zoom_ok {ρ : Type} {g : σ → ρ} {put : ρ → σ → σ} {x : Prog ε ρ α} {s : σ} {a : α} {r : ρ}
    (h : x (g s) = (.ok a, r)) : zoom g put x s = (.ok a, put r s) := by
  unfold zoom
  rw [h]

theorem zoom_error {ρ : Type} {g : σ → ρ} {put : ρ → σ → σ} {x : Prog ε ρ α} {s : σ} {e : ε} {r : ρ}
    (h : x (g s) = (.error e, r)) : zoom g put x s = (.error e, put r s) := by
  unfold zoom
  rw [h]

theorem bind_ok {x : Prog ε σ α} {f : α → Prog ε σ β} {s s' : σ} {a : α} (h : x s = (.ok a, s')) :
    (x >>= f) s = f a s' := by
  show (match x s with | (.ok a, s) => f a s | (.error e, s) => (.error e, s)) = _
  rw [h]

theorem bind_error {x : Prog ε σ α} {f : α → Prog ε σ β} {s s' : σ} {e : ε} (h : x s = (.error e, s')) :
    (x >>= f) s = (.error e, s') := by
  show (match x s with | (.ok a, s) => f a s | (.error e, s) => (.error e, s)) = _
  rw [h]

instance : LawfulMonad (Prog ε σ) := LawfulMonad.mk' (Prog ε σ)
  (fun x => by
    funext s
    rcases hx : x s with ⟨e | a, s'⟩
    · exact bind_error hx
    · exact bind_ok hx)
  (fun _ _ => rfl)
  (fun x f g => by
    funext s
    rcases hx : x s with ⟨e | a, s'⟩
    · rw [bind_error (bind_error hx), bind_error hx]
    · rw [bind_ok hx]
      rcases hf : f a s' with ⟨e | b, t⟩
      · rw [bind_error ((bind_ok hx).trans hf), bind_error hf]
      · rw [bind_ok ((bind_ok hx).trans hf), bind_ok hf])

theorem forEach_cons_ok {f : α → Prog ε σ Unit} {a : α} {s s' : σ} (h : f a s = (.ok (), s')) (l : List α) :
    forEach f (a :: l) s = forEach f l s' := by
  rw [forEach, bind_ok h]

/-- A loop whose body raises or not whatever the state. -/
theorem forEach_ok_iff {f : α → Prog ε σ Unit} {P : α → Prop} {l : List α}
    (h : ∀ a ∈ l, ∀ s, (f a s).1 = .ok () ↔ P a) (s : σ) : (forEach f l s).1 = .ok () ↔ ∀ a ∈ l, P a := by
  induction l generalizing s with
  | nil => simp [forEach]
  | cons a l ih =>
    have hl := ih fun b hb => h b (List.mem_cons_of_mem _ hb)
    have ha := h a (List.mem_cons_self ..) s
    rw [List.forall_mem_cons, ← ha]
    rcases hs : f a s with ⟨e | u, s'⟩
    · rw [forEach, bind_error hs]
      simp
    · rw [forEach_cons_ok hs, hl]
      simp

/-- A program that runs `x` and then `f` if the state calls for it. -/
theorem get_when_ok {c : σ → Bool} {x : Prog ε σ Unit} {f : σ → σ} {s s' : σ}
    (h : (do let s ← get; when (c s) (do x; modify f)) s = (.ok (), s')) :
    c s = false ∧ s' = s ∨ c s = true ∧ ∃ u t, x s = (.ok u, t) ∧ s' = f t := by
  rw [bind_ok (get_run s)] at h
  cases hc : c s with
  | false =>
    rw [hc, when_false, pure_run] at h
    cases h
    exact .inl ⟨rfl, rfl⟩
  | true =>
    rw [hc, when_true] at h
    rcases hx : x s with ⟨_ | u, t⟩
    · rw [bind_error hx] at h
      cases h
    · rw [bind_ok hx, modify_run] at h
      cases h
      exact .inr ⟨rfl, u, t, rfl, rfl⟩

/-! ## Relations between the states before and after -/

/-- However the program ends, `R` holds between the states before and after it. -/
def Relates (R : σ → σ → Prop) (x : Prog ε σ α) : Prop := ∀ s, R s (x s).2

section Relates

variable {R : σ → σ → Prop} [IsPreorder σ R]

theorem Relates.pure (a : α) : Relates R (pure a : Prog ε σ α) := fun s => Std.Refl.refl s

theorem Relates.raise (e : ε) : Relates R (raise e : Prog ε σ α) := fun s => Std.Refl.refl s

theorem Relates.get : Relates R (get : Prog ε σ σ) := fun s => Std.Refl.refl s

theorem Relates.lift (x : Except ε α) : Relates R (lift x : Prog ε σ α) := fun s => Std.Refl.refl s

theorem Relates.when {c : Bool} {x : Prog ε σ Unit} (hx : Relates R x) : Relates R (when c x) := by
  cases c with
  | true => exact hx
  | false => exact Relates.pure ()

/-- What follows the first part of a program relates to the state that part has left. -/
theorem Relates.after {x : Prog ε σ α} {f : α → Prog ε σ β} (hf : ∀ a, Relates R (f a)) (s : σ) :
    R (x s).2 ((x >>= f) s).2 := by
  rcases hs : x s with ⟨_ | a, s'⟩
  · rw [bind_error hs]; exact Std.Refl.refl s'
  · rw [bind_ok hs]; exact hf a s'

theorem Relates.bind {x : Prog ε σ α} {f : α → Prog ε σ β} (hx : Relates R x) (hf : ∀ a, Relates R (f a)) :
    Relates R (x >>= f) := fun s => IsTrans.trans _ _ _ (hx s) (Relates.after hf s)

omit [IsPreorder σ R] in
theorem Relates.zoom {ρ : Type} {Q : ρ → ρ → Prop} {g : σ → ρ} {put : ρ → σ → σ} {x : Prog ε ρ α} (hx : Relates Q x)
    (h : ∀ s r, Q (g s) r → R s (put r s)) : Relates R (zoom g put x) := fun s => h s _ (hx (g s))

theorem Relates.forEach {f : α → Prog ε σ Unit} {l : List α} (h : ∀ a ∈ l, Relates R (f a)) :
    Relates R (forEach f l) := by
  induction l with
  | nil => exact Relates.pure ()
  | cons a l ih =>
    exact (h a (List.mem_cons_self ..)).bind fun _ => ih fun b hb => h b (List.mem_cons_of_mem _ hb)

end Relates

/-! ## What holds when a program returns -/

/-- Started where `P` holds, the program ends where `Q` holds of its result, if it does not raise. -/
def Ensures (P : σ → Prop) (x : Prog ε σ α) (Q : α → σ → Prop) : Prop :=
  ∀ s, P s → ∀ a s', x s = (.ok a, s') → Q a s'

section Ensures

variable {P : σ → Prop} {x : Prog ε σ α} {Q : α → σ → Prop}

theorem Ensures.pure {a : α} (h : ∀ s, P s → Q a s) : Ensures P (pure a : Prog ε σ α) Q := by
  rintro s hs _ _ ⟨⟩
  exact h s hs

theorem Ensures.raise (e : ε) : Ensures P (raise e : Prog ε σ α) Q := by
  rintro s hs _ _ ⟨⟩

theorem Ensures.get : Ensures P (get : Prog ε σ σ) fun _ => P := by
  rintro s hs _ _ ⟨⟩
  exact hs

theorem Ensures.modify {f : σ → σ} {Q : σ → Prop} (h : ∀ s, P s → Q (f s)) :
    Ensures P (modify f : Prog ε σ Unit) fun _ => Q := by
  rintro s hs _ _ ⟨⟩
  exact h s hs

theorem Ensures.bind {f : α → Prog ε σ β} {Q' : β → σ → Prop} (hx : Ensures P x Q) (hf : ∀ a, Ensures (Q a) (f a) Q') :
    Ensures P (x >>= f) Q' := by
  intro s hs b s'' h
  rcases hrun : x s with ⟨e | a, s'⟩
  · rw [bind_error hrun] at h
    cases h
  · rw [bind_ok hrun] at h
    exact hf a s' (hx s hs a s' hrun) b s'' h

theorem Ensures.when {c : Bool} {x : Prog ε σ Unit} {Q : σ → Prop} (hx : Ensures P x fun _ => Q) (h : ∀ s, P s → Q s) :
    Ensures P (when c x) fun _ => Q := by
  cases c with
  | true => exact hx
  | false => exact Ensures.pure h

end Ensures

/-! ## Programs that return unless something bad is logged -/

/-- The program appends to a log. Started where `P` holds, it does not raise and ends where `Q` holds of
its result, unless something it appends is not of `G`. -/
def Guarded {γ : Type} (log : σ → List γ) (G : γ → Prop) (P : σ → Prop) (x : Prog ε σ α) (Q : α → σ → Prop) : Prop :=
  ∀ s, ∃ es, log (x s).2 = log s ++ es ∧ (P s → (∀ e ∈ es, G e) → ∃ a s', x s = (.ok a, s') ∧ Q a s')

section Guarded

variable {γ : Type} {log : σ → List γ} {G : γ → Prop} {P : σ → Prop} {x : Prog ε σ α} {Q : α → σ → Prop}

/-- A step that logs nothing. -/
theorem Guarded.silent {a : σ → α} {f : σ → σ} (hx : ∀ s, P s → x s = (.ok (a s), f s))
    (hlog : ∀ s, log (x s).2 = log s) (h : ∀ s, P s → Q (a s) (f s)) : Guarded log G P x Q :=
  fun s => ⟨[], by rw [hlog, List.append_nil], fun hs _ => ⟨a s, f s, hx s hs, h s hs⟩⟩

theorem Guarded.pure {a : α} (h : ∀ s, P s → Q a s) : Guarded log G P (pure a : Prog ε σ α) Q :=
  Guarded.silent (fun _ _ => rfl) (fun _ => rfl) h

theorem Guarded.raise {e : ε} (h : ∀ s, ¬ P s) : Guarded log G P (raise e : Prog ε σ α) Q :=
  fun s => ⟨[], by simp, fun hs => absurd hs (h s)⟩

theorem Guarded.get : Guarded log G P (get : Prog ε σ σ) fun a s => a = s ∧ P s :=
  Guarded.silent (fun _ _ => rfl) (fun _ => rfl) fun _ hs => ⟨rfl, hs⟩

theorem Guarded.bind {f : α → Prog ε σ β} {Q' : β → σ → Prop} (hx : Guarded log G P x Q)
    (hf : ∀ a, Guarded log G (Q a) (f a) Q') : Guarded log G P (x >>= f) Q' := by
  intro s
  obtain ⟨es, hes, h⟩ := hx s
  rcases hs : x s with ⟨e | a, s'⟩ <;> rw [hs] at hes h
  · refine ⟨es, by rwa [bind_error hs], fun hP hG => ?_⟩
    obtain ⟨a, t, hrun, -⟩ := h hP hG
    cases hrun
  · obtain ⟨fs, hfs, h'⟩ := hf a s'
    rw [bind_ok hs]
    refine ⟨es ++ fs, by rw [hfs, hes, List.append_assoc], fun hP hG => ?_⟩
    obtain ⟨b, t, hrun, hQ⟩ := h hP fun e he => hG e (List.mem_append_left _ he)
    cases hrun
    exact h' hQ fun e he => hG e (List.mem_append_right _ he)

theorem Guarded.mono {P' : σ → Prop} {Q' : α → σ → Prop} (hx : Guarded log G P x Q) (hP : ∀ s, P' s → P s)
    (hQ : ∀ a s, Q a s → Q' a s) : Guarded log G P' x Q' := by
  intro s
  obtain ⟨es, hes, h⟩ := hx s
  refine ⟨es, hes, fun hs hG => ?_⟩
  obtain ⟨a, s', hrun, ha⟩ := h (hP s hs) hG
  exact ⟨a, s', hrun, hQ a s' ha⟩

end Guarded

/-! ## Checking a run -/

/-- The program returned, and what it returned passes the test. -/
def passes (q : α → Bool) : Except ε α × σ → Bool
  | (.ok a, _) => q a
  | (.error _, _) => false

theorem exists_of_passes {q : α → Bool} {r : Except ε α × σ} (h : passes q r = true) :
    ∃ a, r = (.ok a, r.2) ∧ q a = true := by
  rcases r with ⟨e | a, s⟩
  · cases h
  · exact ⟨a, rfl, h⟩

/-- What the program raised. -/
def raised : Except ε α × σ → Option ε
  | (.ok _, _) => none
  | (.error e, _) => some e

/-! ## Programs that append -/

/-- From every state the program ends in the same way and appends the same elements to a list in it. -/
def Appends {γ : Type} (obs : σ → List γ) (x : Prog ε σ α) (r : Except ε α) (l : List γ) : Prop :=
  ∀ s, (x s).1 = r ∧ obs (x s).2 = obs s ++ l

section Appends

variable {γ : Type} {obs : σ → List γ} {x : Prog ε σ α} {l m : List γ}

theorem Appends.pure (a : α) : Appends obs (pure a : Prog ε σ α) (.ok a) [] := fun s => by simp

theorem Appends.raise (e : ε) : Appends obs (raise e : Prog ε σ α) (.error e) [] := fun s => by simp

theorem Appends.modify {f : σ → σ} (h : ∀ s, obs (f s) = obs s ++ l) :
    Appends obs (modify f : Prog ε σ Unit) (.ok ()) l := fun s => ⟨rfl, h s⟩

theorem Appends.bind_error {e : ε} (hx : Appends obs x (.error e) l) (f : α → Prog ε σ β) :
    Appends obs (x >>= f) (.error e) l := by
  intro s
  rcases hs : x s with ⟨r, s'⟩
  obtain ⟨hr, hobs⟩ := hx s
  rw [hs] at hr hobs
  dsimp only at hr hobs
  subst hr
  rw [Prog.bind_error hs]
  exact ⟨rfl, hobs⟩

theorem Appends.bind_ok {a : α} {f : α → Prog ε σ β} {r : Except ε β} (hx : Appends obs x (.ok a) l)
    (hf : Appends obs (f a) r m) : Appends obs (x >>= f) r (l ++ m) := by
  intro s
  rcases hs : x s with ⟨r', s'⟩
  obtain ⟨hr, hobs⟩ := hx s
  rw [hs] at hr hobs
  dsimp only at hr hobs
  subst hr
  obtain ⟨hr', hobs'⟩ := hf s'
  rw [Prog.bind_ok hs]
  exact ⟨hr', by rw [hobs', hobs, List.append_assoc]⟩

section Family

variable {ι : Type}

/-- In sequence, when the first part may raise. -/
theorem Appends.bind {x : ι → Prog ε σ α} {f : ι → α → Prog ε σ β} (hx : ∃ r l, ∀ i, Appends obs (x i) r l)
    (hf : ∀ a, ∃ r l, ∀ i, Appends obs (f i a) r l) : ∃ r l, ∀ i, Appends obs (x i >>= f i) r l := by
  obtain ⟨r, l, hx⟩ := hx
  cases r with
  | error e => exact ⟨_, _, fun i => (hx i).bind_error _⟩
  | ok a =>
    obtain ⟨r', l', hf⟩ := hf a
    exact ⟨_, _, fun i => (hx i).bind_ok (hf i)⟩

theorem Appends.forEach {f : ι → α → Prog ε σ Unit} {as : List α}
    (h : ∀ a ∈ as, ∃ r l, ∀ i, Appends obs (f i a) r l) : ∃ r l, ∀ i, Appends obs (forEach (f i) as) r l := by
  induction as with
  | nil => exact ⟨_, _, fun _ => Appends.pure ()⟩
  | cons a as ih =>
    exact Appends.bind (h a (List.mem_cons_self ..)) fun _ => ih fun b hb => h b (List.mem_cons_of_mem _ hb)

end Family

theorem Appends.zoom {ρ : Type} {g : σ → ρ} {put : ρ → σ → σ} {obs' : ρ → List γ} {x : Prog ε ρ α} {r : Except ε α}
    (hx : Appends obs' x r l) (hobs : ∀ s, obs s = obs' (g s)) (hput : ∀ t s, obs (put t s) = obs' t) :
    Appends obs (zoom g put x) r l := by
  intro s
  obtain ⟨hr, ho⟩ := hx (g s)
  exact ⟨hr, by rw [hobs s, ← ho]; exact hput _ s⟩

end Appends

end Prog

end NgProxy
