import Mathlib.Data.UInt
import Mathlib.Logic.Relation

/-!
# Runs of a partial step function

A server is a state type `σ`, a type `α` of steps (a call together with every
answer the environment gives while the call is handled) and a partial step
function `exec : σ → α → Option σ`. The result `none` means that the server has
stopped: a failed assertion, an `abort()`, or a step that cannot happen in this
state.
-/

namespace Sneks.Lib

variable {σ α : Type*}

/-- `Run exec ok s as t`: the steps `as` lead from `s` to `t`, each one meeting
    `ok` in the state it is taken from. -/
inductive Run (exec : σ → α → Option σ) (ok : σ → α → Prop) : σ → List α → σ → Prop
  | nil (s : σ) : Run exec ok s [] s
  | cons {s t u : σ} {a : α} {as : List α} :
      ok s a → exec s a = some t → Run exec ok t as u → Run exec ok s (a :: as) u

def free (_ : σ) (_ : α) : Prop := True

instance (s : σ) (a : α) : Decidable (free s a) := inferInstanceAs (Decidable True)

/-- The state the steps `as` lead to, if each of them can be taken and meets `ok`. -/
def evalRun (exec : σ → α → Option σ) (ok : σ → α → Prop) [∀ s a, Decidable (ok s a)] :
    σ → List α → Option σ
  | s, [] => some s
  | s, a :: as => if ok s a then (exec s a).bind (evalRun exec ok · as) else none

namespace Run

variable {exec : σ → α → Option σ} {ok : σ → α → Prop} {s t u : σ} {as bs : List α}

/-- **Invariant rule**: what every step keeps, every run keeps. -/
theorem invariant {I : σ → Prop}
    (hstep : ∀ s a t, ok s a → exec s a = some t → I s → I t)
    (h : Run exec ok s as t) (hs : I s) : I t := by
  induction h with
  | nil s => exact hs
  | cons hok he _ ih => exact ih (hstep _ _ _ hok he hs)

theorem mono_mem {ok' : σ → α → Prop} (h : Run exec ok s as t) (hok : ∀ s, ∀ a ∈ as, ok s a → ok' s a) :
    Run exec ok' s as t := by
  induction h with
  | nil s => exact .nil s
  | cons ha he _ ih =>
    exact .cons (hok _ _ List.mem_cons_self ha) he (ih fun s a hmem => hok s a (List.mem_cons_of_mem _ hmem))

theorem mono {ok' : σ → α → Prop} (h : Run exec ok s as t) (hok : ∀ s a, ok s a → ok' s a) : Run exec ok' s as t :=
  h.mono_mem fun s a _ => hok s a

theorem append (h : Run exec ok s as t) (h' : Run exec ok t bs u) : Run exec ok s (as ++ bs) u := by
  induction h with
  | nil s => exact h'
  | cons hok he _ ih => exact .cons hok he (ih h')

theorem of_evalRun [∀ s a, Decidable (ok s a)] (h : evalRun exec ok s as = some t) :
    Run exec ok s as t := by
  induction as generalizing s with
  | nil =>
    simp only [evalRun, Option.some.injEq] at h
    subst h
    exact .nil s
  | cons a as ih =>
    simp only [evalRun] at h
    split at h
    · next hok =>
      obtain ⟨u, hu, hrest⟩ := Option.bind_eq_some_iff.mp h
      exact .cons hok hu (ih hrest)
    · cases h

theorem exists_of_evalRun (exec : σ → α → Option σ) (ok : σ → α → Prop) [∀ s a, Decidable (ok s a)]
    (s : σ) (as : List α) {β : Type*} (f : σ → β) (b : β)
    (h : (evalRun exec ok s as).map f = some b) : ∃ t, Run exec ok s as t ∧ f t = b := by
  obtain ⟨t, ht, hb⟩ := Option.map_eq_some_iff.mp h
  exact ⟨t, of_evalRun ht, hb⟩

end Run

end Sneks.Lib
