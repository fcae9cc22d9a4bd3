import Mathlib.Order.Nat

/-!
# Wings.Lib.Schedule — runs of a machine whose steps may be blocked

A machine is a function `step : σ → α → Option σ`: an action is enabled in a state or not.  `Scheduled G s as t`
says that the actions `as` lead from `s` to `t`, each of them enabled, and that each step meets the guard `G`.
-/

namespace Wings.Lib

variable {σ α : Type*} (step : σ → α → Option σ)

def Scheduled (G : σ → α → Prop) : σ → List α → σ → Prop
  | s, [], t => s = t
  | s, a :: as, t => G s a ∧ ∃ s', step s a = some s' ∧ Scheduled G s' as t

variable {step} {G : σ → α → Prop} {as : List α} {s t : σ}

/-- The actions meet the guard in every state. -/
theorem scheduled_of_foldlM (hG : ∀ a ∈ as, ∀ s, G s a) (h : as.foldlM step s = some t) :
    Scheduled step G s as t := by
  induction as generalizing s with
  | nil => exact Option.some.inj h
  | cons a as ih =>
    obtain ⟨s', hs', hrest⟩ := Option.bind_eq_some_iff.mp h
    exact ⟨hG a List.mem_cons_self s, s', hs', ih (fun b hb => hG b (List.mem_cons_of_mem a hb)) hrest⟩

/-- **Run rule.** -/
theorem inv_of_scheduled {I : σ → Prop} (hstep : ∀ s a s', I s → G s a → step s a = some s' → I s')
    (h0 : I s) (h : Scheduled step G s as t) : I t := by
  induction as generalizing s with
  | nil => exact h ▸ h0
  | cons a as ih =>
    obtain ⟨hguard, s', hs', hrest⟩ := h
    exact ih (hstep s a s' h0 hguard hs') hrest

end Wings.Lib
