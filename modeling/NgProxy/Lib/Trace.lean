/-
Runs of a transition system: a step takes a state and an event and may be impossible. An invariant
may speak of the events so far; it is proved for one step and holds after every run.
-/
import Mathlib.Tactic.Common

namespace NgProxy.Trace

variable {σ ε : Type} {step : σ → ε → Option σ}

/-- The state after the events, if each of them was possible. -/
def run (step : σ → ε → Option σ) : σ → List ε → Option σ
  | s, [] => some s
  | s, e :: es => (step s e).bind fun s' => run step s' es

theorem run_cons {s s' : σ} {e : ε} {es : List ε} :
    run step s (e :: es) = some s' ↔ ∃ m, step s e = some m ∧ run step m es = some s' := by
  rw [run, Option.bind_eq_some_iff]

theorem run_append {s s' : σ} {as bs : List ε} :
    run step s (as ++ bs) = some s' ↔ ∃ m, run step s as = some m ∧ run step m bs = some s' := by
  induction as generalizing s with
  | nil => simp [run]
  | cons e as ih =>
    rw [List.cons_append, run_cons]
    constructor
    · rintro ⟨m, hm, hrun⟩
      obtain ⟨n, has, hbs⟩ := ih.1 hrun
      exact ⟨n, run_cons.2 ⟨m, hm, has⟩, hbs⟩
    · rintro ⟨n, has, hbs⟩
      obtain ⟨m, hm, has⟩ := run_cons.1 has
      exact ⟨m, hm, ih.2 ⟨n, has, hbs⟩⟩

/-- What every step by an event of `P` preserves holds after every run of such events. -/
theorem run_invariant {I : List ε → σ → Prop} {P : ε → Prop}
    (hstep : ∀ tr s e s', P e → I tr s → step s e = some s' → I (tr ++ [e]) s')
    {tr : List ε} {s s' : σ} (hP : ∀ e ∈ tr, P e) (h0 : I [] s) (hrun : run step s tr = some s') : I tr s' := by
  suffices h : ∀ past s, I past s → run step s tr = some s' → I (past ++ tr) s' from h [] s h0 hrun
  clear h0 hrun
  induction tr with
  | nil =>
    intro past s hI hrun
    cases hrun
    simpa using hI
  | cons e es ih =>
    intro past s hI hrun
    obtain ⟨m, hm, hes⟩ := run_cons.1 hrun
    have hI' := hstep past s e m (hP e (List.mem_cons_self ..)) hI hm
    have := ih (fun x hx => hP x (List.mem_cons_of_mem _ hx)) (past ++ [e]) m hI' hes
    rwa [List.append_assoc, List.singleton_append] at this

/-- Every step of the run is taken in a state in which `P` allows it. -/
def Along (step : σ → ε → Option σ) (P : σ → ε → Prop) : σ → List ε → Prop
  | _, [] => True
  | s, e :: es => P s e ∧
    match step s e with
    | none => True
    | some s' => Along step P s' es

/-- The steps of a run, each with the part of the run before it. -/
theorem along_iff {P : σ → ε → Prop} {tr : List ε} {s : σ} :
    Along step P s tr ↔ ∀ pre e post m, tr = pre ++ e :: post → run step s pre = some m → P m e := by
  induction tr generalizing s with
  | nil => exact ⟨fun _ pre e post m h => by simp at h, fun _ => trivial⟩
  | cons a tr ih =>
    constructor
    · rintro ⟨ha, hrest⟩ pre e post m htr hrun
      cases pre with
      | nil =>
        cases htr
        cases hrun
        exact ha
      | cons b pre =>
        cases htr
        obtain ⟨s', hs', hrun⟩ := run_cons.1 hrun
        rw [hs'] at hrest
        exact ih.1 hrest pre e post m rfl hrun
    · intro h
      refine ⟨h [] a tr s rfl rfl, ?_⟩
      split
      · trivial
      · rename_i s' hs'
        exact ih.2 fun pre e post m htr hrun => h (a :: pre) e post m (by rw [htr]; rfl) (run_cons.2 ⟨s', hs', hrun⟩)

/-- What every step that `P` allows preserves holds after every run of such steps. -/
theorem run_along {I : σ → Prop} {P : σ → ε → Prop} (hstep : ∀ s e s', P s e → I s → step s e = some s' → I s')
    {tr : List ε} {s s' : σ} (hP : Along step P s tr) (h0 : I s) (hrun : run step s tr = some s') : I s' := by
  induction tr generalizing s with
  | nil =>
    cases hrun
    exact h0
  | cons e es ih =>
    obtain ⟨m, hm, hes⟩ := run_cons.1 hrun
    rw [Along, hm] at hP
    exact ih hP.2 (hstep s e m hP.1 h0 hm) hes

end NgProxy.Trace
