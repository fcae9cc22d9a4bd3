import Mathlib.Data.List.Basic

/-!
# Wings.Lib.PendingCheck — one slot for what is still to be checked

Items of a sequence put a value into a slot or check the value that is there; a second value overwrites the first.
`slotRun` fails when there is nothing to check or when something else is there.
-/

namespace Wings.Lib

open List Option

variable {ι α σ : Type*} [DecidableEq α]

inductive SlotEvent (α : Type*)
  | put (a : α)
  | check (a : α)
  deriving DecidableEq

def slotStep (slot : Option α) : Option (SlotEvent α) → Option (Option α)
  | none => some slot
  | some (.put a) => some (some a)
  | some (.check a) => if slot = some a then some none else none

variable (event : ι → Option (SlotEvent α))

def slotRun : Option α → List ι → Option (Option α)
  | slot, [] => some slot
  | slot, x :: xs => (slotStep slot (event x)).bind (slotRun · xs)

/-- Every value that is put is checked before the next one is put. -/
def Verified (xs : List ι) : Prop :=
  ∀ before x after a, xs = before ++ x :: after → event x = some (.put a) →
    ∃ between y rest, after = between ++ y :: rest ∧ event y = some (.check a) ∧
      ∀ z ∈ between, ∀ b, event z ≠ some (.put b)

/-- There is a check between any two values that are put. -/
def Separated (xs : List ι) : Prop :=
  ∀ before x between y after a b, xs = before ++ x :: (between ++ y :: after) → event x = some (.put a) →
    event y = some (.put b) → ∃ z ∈ between, ∃ c, event z = some (.check c)

variable {event}

theorem slotRun_append (slot : Option α) (xs ys : List ι) :
    slotRun event slot (xs ++ ys) = (slotRun event slot xs).bind (slotRun event · ys) := by
  induction xs generalizing slot with
  | nil => rfl
  | cons x xs ih =>
    rw [cons_append, slotRun, slotRun, bind_assoc]
    exact bind_congr fun slot' _ => ih slot'

variable {xs : List ι}

theorem slotRun_of_step {step : σ → ι → Option σ} (slot : σ → Option α)
    (hstep : ∀ s x s', step s x = some s' → slotStep (slot s) (event x) = some (slot s')) {s t : σ}
    (h : xs.foldlM step s = some t) : slotRun event (slot s) xs = some (slot t) := by
  induction xs generalizing s with
  | nil => cases h; rfl
  | cons x xs ih =>
    rw [foldlM_cons, bind_eq_bind, bind_eq_some_iff] at h
    obtain ⟨s', hs', h⟩ := h
    rw [slotRun, hstep s x s' hs', bind_some, ih h]

/-- What happens first after a value was put, if the slot is empty in the end. -/
theorem exists_next_event {a : α} (h : slotRun event (some a) xs = some none) :
    ∃ between y rest, xs = between ++ y :: rest ∧ (∀ z ∈ between, event z = none) ∧
      (event y = some (.check a) ∨ ∃ b, event y = some (.put b)) := by
  induction xs with
  | nil => cases h
  | cons x xs ih =>
    rw [slotRun] at h
    cases hx : event x with
    | none =>
      rw [hx] at h
      obtain ⟨between, y, rest, rfl, hbetween, hy⟩ := ih h
      exact ⟨x :: between, y, rest, rfl, forall_mem_cons.mpr ⟨hx, hbetween⟩, hy⟩
    | some e =>
      refine ⟨[], x, xs, rfl, nofun, ?_⟩
      cases e with
      | put b => exact .inr ⟨b, hx⟩
      | check b =>
        rw [hx, slotStep] at h
        split_ifs at h with hab
        · exact .inl (by rw [hx, some.inj hab])
        · cases h

/-- **When the slot is empty in the end**, values are checked in time just if there is a check between any two of
them. -/
theorem verified_iff_separated {slot : Option α} (h : slotRun event slot xs = some none) :
    Verified event xs ↔ Separated event xs := by
  constructor
  · intro hverified before x between y after a b hxs hx hy
    obtain ⟨between', z, rest, hafter, hz, hbetween'⟩ := hverified before x _ a hxs hx
    -- the check comes before `y`, since `y` puts a value
    rcases append_eq_append_iff.mp hafter with ⟨mid, hmid, hrest⟩ | ⟨mid, hmid, hrest⟩
    · cases mid with
      | nil =>
        rw [nil_append, cons.injEq] at hrest
        rw [hrest.1, hz] at hy
        cases hy
      | cons w mid =>
        rw [cons_append, cons.injEq] at hrest
        have hmem : y ∈ between' := by rw [hmid, hrest.1]; simp
        exact absurd hy (hbetween' y hmem b)
    · cases mid with
      | nil =>
        rw [nil_append, cons.injEq] at hrest
        rw [← hrest.1, hz] at hy
        cases hy
      | cons w mid =>
        rw [cons_append, cons.injEq] at hrest
        exact ⟨z, by rw [hmid, hrest.1]; simp, a, hz⟩
  · intro hseparated before x after a hxs hx
    rw [hxs, slotRun_append, bind_eq_some_iff] at h
    obtain ⟨slot', _, h⟩ := h
    rw [slotRun, hx, slotStep, bind_some] at h
    obtain ⟨between, y, rest, rfl, hbetween, hy⟩ := exists_next_event h
    refine ⟨between, y, rest, rfl, hy.resolve_right fun ⟨b, hput⟩ => ?_, fun z hz b hput => ?_⟩
    · obtain ⟨z, hz, c, hcheck⟩ := hseparated before x between y rest a b hxs hx hput
      rw [hbetween z hz] at hcheck
      cases hcheck
    · rw [hbetween z hz] at hput
      cases hput

end Wings.Lib
