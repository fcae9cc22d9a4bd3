import Mathlib.Data.List.Infix

/-!
# Wings.Lib.Run — runs of a state machine that answers every action

A machine is a function `step : σ → α → σ × β`: from a state and an action, the next state and the
answer.  `exec` is the state after a list of actions, `trace` the list of actions with their
answers.  `Steps G s as` says that every step of the run meets a guard `G`, which may look at the
trace before the step, the state before the step and the action.

The rule used by every run result is `inv_of_steps`: an invariant over (trace, state) that holds at
the start and survives every guarded step holds at the end of every guarded run.
-/

namespace Wings.Lib

open List

variable {σ α β : Type*} (step : σ → α → σ × β)

def exec (s : σ) : List α → σ
  | [] => s
  | a :: as => exec (step s a).1 as

/-- The actions with their answers, in order. -/
def trace (s : σ) : List α → List (α × β)
  | [] => []
  | a :: as => (a, (step s a).2) :: trace (step s a).1 as

theorem exec_append (s : σ) (as bs : List α) : exec step s (as ++ bs) = exec step (exec step s as) bs := by
  induction as generalizing s with
  | nil => rfl
  | cons a as ih => exact ih (step s a).1

theorem trace_append (s : σ) (as bs : List α) :
    trace step s (as ++ bs) = trace step s as ++ trace step (exec step s as) bs := by
  induction as generalizing s with
  | nil => rfl
  | cons a as ih => simp only [cons_append, trace, exec, ih]

theorem exec_concat (s : σ) (as : List α) (a : α) : exec step s (as ++ [a]) = (step (exec step s as) a).1 := by
  rw [exec_append]; rfl

theorem trace_concat (s : σ) (as : List α) (a : α) :
    trace step s (as ++ [a]) = trace step s as ++ [(a, (step (exec step s as) a).2)] := by
  rw [trace_append]; rfl

/-- A split of a longer trace is at its last step or a split of the trace before. -/
theorem split_concat {γ : Type*} {x e : γ} {tr pre post : List γ} (h : tr ++ [e] = pre ++ x :: post) :
    post = [] ∧ e = x ∨ ∃ post', post = post' ++ [e] ∧ tr = pre ++ x :: post' := by
  rcases eq_nil_or_concat' post with rfl | ⟨post', y, rfl⟩
  · have hlast := append_inj_right' h rfl
    exact .inl ⟨rfl, by simpa using hlast⟩
  · rw [← cons_append, ← append_assoc] at h
    obtain ⟨rfl, rfl⟩ := append_singleton_inj.mp h
    exact .inr ⟨post', rfl, rfl⟩

/-- Every step of the run from `s` meets the guard `G`. -/
def Steps (G : List (α × β) → σ → α → Prop) (s : σ) (as : List α) : Prop :=
  ∀ pre a, pre ++ [a] <+: as → G (trace step s pre) (exec step s pre) a

variable {step} {G : List (α × β) → σ → α → Prop} {as : List α} {s : σ}

theorem steps_nil : Steps step G s [] := by
  intro pre a h
  simp at h

theorem steps_concat {a : α} :
    Steps step G s (as ++ [a]) ↔ Steps step G s as ∧ G (trace step s as) (exec step s as) a := by
  constructor
  · intro h
    exact ⟨fun pre b hp => h pre b (hp.trans (prefix_append _ _)), h as a prefix_rfl⟩
  · rintro ⟨h, hg⟩ pre b hp
    rcases prefix_concat_iff.mp hp with heq | hp
    · obtain ⟨rfl, rfl⟩ := append_singleton_inj.mp heq
      exact hg
    · exact h pre b hp

theorem steps_cons {a : α} :
    Steps step G s (a :: as) ↔
      G [] s a ∧ Steps step (fun tr t b => G ((a, (step s a).2) :: tr) t b) (step s a).1 as := by
  constructor
  · intro h
    exact ⟨h [] a ⟨as, rfl⟩, fun pre b hp => h (a :: pre) b (cons_prefix_cons.mpr ⟨rfl, hp⟩)⟩
  · rintro ⟨h0, h⟩ pre b hp
    cases pre with
    | nil =>
      obtain ⟨rfl, -⟩ := cons_prefix_cons.mp hp
      exact h0
    | cons c pre =>
      obtain ⟨rfl, htail⟩ := cons_prefix_cons.mp hp
      exact h pre b htail

theorem Steps.of_prefix {bs : List α} (h : Steps step G s bs) (hp : as <+: bs) : Steps step G s as :=
  fun pre a ha => h pre a (ha.trans hp)

theorem Steps.and_mem (h : Steps step G s as) : Steps step (fun tr t a => G tr t a ∧ a ∈ as) s as :=
  fun pre a ha => ⟨h pre a ha, ha.subset (by simp)⟩

@[simp] theorem map_fst_trace (s : σ) (as : List α) : (trace step s as).map Prod.fst = as := by
  induction as generalizing s with
  | nil => rfl
  | cons a as ih => simp [trace, ih]

variable {I : List (α × β) → σ → Prop}

/-- **Run rule.**  An invariant of (trace, state) that holds initially and survives every guarded
step holds after every guarded run. -/
theorem inv_of_steps (h0 : I [] s) (hstep : ∀ tr t a, I tr t → G tr t a → I (tr ++ [(a, (step t a).2)]) (step t a).1)
    (h : Steps step G s as) : I (trace step s as) (exec step s as) := by
  induction as using reverseRecOn with
  | nil => exact h0
  | append_singleton as a ih =>
    obtain ⟨hs, hg⟩ := steps_concat.mp h
    rw [trace_concat, exec_concat]
    exact hstep _ _ a (ih hs) hg

/-- **Two runs.**  If a relation of states that holds initially survives every step that is guarded in the first
run, and the answers are the same then, the traces are the same. -/
theorem trace_eq_of_steps {R : σ → σ → Prop} {s' : σ} (h0 : R s s')
    (hstep : ∀ tr t t' a, R t t' → G tr t a → (step t a).2 = (step t' a).2 ∧ R (step t a).1 (step t' a).1)
    (h : Steps step G s as) : trace step s as = trace step s' as := by
  induction as generalizing G s s' with
  | nil => rfl
  | cons a as ih =>
    obtain ⟨hg, hs⟩ := steps_cons.mp h
    obtain ⟨hanswer, hnext⟩ := hstep [] s s' a h0 hg
    rw [trace, trace, hanswer, ih hnext (fun tr t t' b => hstep _ t t' b) (hanswer ▸ hs)]

/-- **Exact guard.**  If a property of (trace, state) is, along runs that have it so far, kept by a
step exactly when the step meets the guard, then it holds in every prefix of a run exactly when
every step of the run meets the guard. -/
theorem forall_prefix_iff_steps (h0 : I [] s)
    (hstep : ∀ as a, Steps step G s as → (∀ pre, pre <+: as → I (trace step s pre) (exec step s pre)) →
      (I (trace step s (as ++ [a])) (exec step s (as ++ [a])) ↔ G (trace step s as) (exec step s as) a))
    (as : List α) :
    (∀ pre, pre <+: as → I (trace step s pre) (exec step s pre)) ↔ Steps step G s as := by
  induction as using reverseRecOn with
  | nil =>
    refine ⟨fun _ => steps_nil, fun _ pre hp => ?_⟩
    obtain rfl := prefix_nil.mp hp
    exact h0
  | append_singleton as a ih =>
    rw [steps_concat, ← ih]
    constructor
    · intro h
      have hpre : ∀ pre, pre <+: as → I (trace step s pre) (exec step s pre) :=
        fun pre hp => h pre (hp.trans (prefix_append _ _))
      exact ⟨hpre, (hstep as a (ih.mp hpre) hpre).mp (h _ prefix_rfl)⟩
    · rintro ⟨hpre, hg⟩ pre hp
      rcases prefix_concat_iff.mp hp with rfl | hp
      · exact (hstep as a (ih.mp hpre) hpre).mpr hg
      · exact hpre pre hp

end Wings.Lib
