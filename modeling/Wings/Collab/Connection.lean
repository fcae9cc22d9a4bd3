import Mathlib.Data.Finset.Basic
import Wings.Lib.Retain
import Wings.Lib.Run

/-!
# Wings.Collab.Connection — what one websocket connection has open

`ConnectionState` of `server/collab/manager.rs`.  A client names a file by a raw path, which resolves to the key of
a session; several editors of one connection may have the same session open.  `subscriptions` has the editors of
each key, `keys` the key that each raw path resolved to when it was subscribed.

* `subscribe`, `unsubscribe` and the machine `step` of both calls.
* **`in_step_of_steady`**
-/

namespace Wings.Collab

open Lib List AList Option

structure ConnectionState where
  subscriptions : AList fun _ : String => Finset String
  keys : AList fun _ : String => String
  pendingResync : Bool

structure Unsubscribed where
  key : String
  last : Bool
  deriving DecidableEq

namespace ConnectionState

def default : ConnectionState := ⟨∅, ∅, false⟩

def subscribe (c : ConnectionState) (rawPath key editor : String) : ConnectionState where
  subscriptions := c.subscriptions.insert key (insert editor ((c.subscriptions.lookup key).getD ∅))
  keys := c.keys.insert rawPath key
  pendingResync := false

/-- The key that the raw path was subscribed with goes before the one it resolves to now. -/
def unsubscribe (c : ConnectionState) (rawPath : String) (resolved : Option String) (editor : String) :
    ConnectionState × Option Unsubscribed :=
  match (c.keys.lookup rawPath).or resolved with
  | none => (c, none)
  | some key =>
    match c.subscriptions.lookup key with
    | none => (c, none)
    | some editors =>
      if (editors.erase editor).Nonempty then
        ({ c with subscriptions := c.subscriptions.insert key (editors.erase editor) }, some ⟨key, false⟩)
      else
        ({ c with
            subscriptions := c.subscriptions.erase key
            keys := retain c.keys fun _ resolved => resolved ≠ key },
          some ⟨key, true⟩)

/-- A call, with the key that the raw path resolves to at that time. -/
inductive Call
  | subscribe (rawPath key editor : String)
  | unsubscribe (rawPath : String) (resolved : Option String) (editor : String)

def step (c : ConnectionState) : Call → ConnectionState × Option Unsubscribed
  | .subscribe rawPath key editor => (c.subscribe rawPath key editor, none)
  | .unsubscribe rawPath resolved editor => c.unsubscribe rawPath resolved editor

/-- The keys of the raw paths are those that are subscribed, and none of these is without an editor. -/
structure InStep (c : ConnectionState) : Prop where
  keys : ∀ key, (∃ rawPath, c.keys.lookup rawPath = some key) ↔ key ∈ c.subscriptions
  editors : ∀ key editors, c.subscriptions.lookup key = some editors → editors.Nonempty

/-- A raw path that is held is subscribed again under the key it is held under. -/
def Steady (c : ConnectionState) : Call → Prop
  | .subscribe rawPath key _ => ∀ held, c.keys.lookup rawPath = some held → held = key
  | .unsubscribe .. => True

/-- Every subscription is followed by a call that ends it. -/
def Matched : List Call → Prop
  | [] => True
  | .subscribe rawPath _ editor :: calls => (∃ resolved, .unsubscribe rawPath resolved editor ∈ calls) ∧ Matched calls
  | .unsubscribe .. :: calls => Matched calls

/-! ## What a call does -/

variable {c : ConnectionState} {rawPath editor : String} {resolved : Option String}

/-- An `unsubscribe` does nothing, takes the editor from a key, or takes the key. -/
theorem unsubscribe_cases (c : ConnectionState) (rawPath : String) (resolved : Option String) (editor : String) :
    ((c.unsubscribe rawPath resolved editor).1 = c ∧ ∀ key, c.keys.lookup rawPath = some key → key ∉ c.subscriptions) ∨
    ∃ key editors, (c.keys.lookup rawPath).or resolved = some key ∧ c.subscriptions.lookup key = some editors ∧
      (((editors.erase editor).Nonempty ∧ (c.unsubscribe rawPath resolved editor).1 =
            { c with subscriptions := c.subscriptions.insert key (editors.erase editor) }) ∨
        (editors.erase editor = ∅ ∧
          (c.unsubscribe rawPath resolved editor).1 =
            { c with
              subscriptions := c.subscriptions.erase key
              keys := retain c.keys fun _ resolved => resolved ≠ key })) := by
  unfold unsubscribe
  cases hkey : (c.keys.lookup rawPath).or resolved with
  | none =>
    refine .inl ⟨rfl, fun key hheld => ?_⟩
    rw [hheld] at hkey
    cases hkey
  | some key =>
    dsimp only
    cases heditors : c.subscriptions.lookup key with
    | none =>
      refine .inl ⟨rfl, fun held hheld => ?_⟩
      rw [hheld] at hkey
      cases hkey
      exact lookup_eq_none.mp heditors
    | some editors =>
      refine .inr ⟨key, editors, rfl, heditors, ?_⟩
      dsimp only
      split
      next hleft => exact .inl ⟨hleft, rfl⟩
      next hlast => exact .inr ⟨Finset.not_nonempty_iff_eq_empty.mp hlast, rfl⟩

theorem lookup_keys_retain {key key' : String} :
    (retain c.keys fun _ resolved => resolved ≠ key).lookup rawPath = some key' ↔
      c.keys.lookup rawPath = some key' ∧ key' ≠ key := by
  rw [lookup_retain, filter_eq_some_iff, decide_eq_true_eq]

/-! ## The maps stay in step -/

theorem inStep_default : InStep default := by
  refine ⟨fun key => ⟨fun ⟨rawPath, h⟩ => ?_, fun h => ?_⟩, fun key editors h => ?_⟩
  · cases h
  · exact absurd h (notMem_empty key)
  · cases h

variable {key : String}

theorem InStep.subscribe (h : InStep c) (hsteady : Steady c (.subscribe rawPath key editor)) :
    InStep (c.subscribe rawPath key editor) := by
  refine ⟨fun key' => ?_, fun key' editors hlookup => ?_⟩
  · rw [ConnectionState.subscribe, mem_insert, ← h.keys]
    constructor
    · rintro ⟨rawPath', hlookup⟩
      by_cases hraw : rawPath' = rawPath
      · rw [hraw, lookup_insert] at hlookup
        exact .inl (some.inj hlookup).symm
      · rw [lookup_insert_ne hraw] at hlookup
        exact .inr ⟨rawPath', hlookup⟩
    · rintro (rfl | ⟨rawPath', hlookup⟩)
      · exact ⟨rawPath, lookup_insert _⟩
      · by_cases hraw : rawPath' = rawPath
        · rw [hsteady key' (hraw ▸ hlookup)]
          exact ⟨rawPath, lookup_insert _⟩
        · exact ⟨rawPath', (lookup_insert_ne hraw).trans hlookup⟩
  · by_cases hkey : key' = key
    · rw [hkey, ConnectionState.subscribe, lookup_insert] at hlookup
      rw [← some.inj hlookup]
      exact Finset.insert_nonempty _ _
    · rw [ConnectionState.subscribe, lookup_insert_ne hkey] at hlookup
      exact h.editors key' editors hlookup

theorem InStep.unsubscribe (h : InStep c) (rawPath : String) (resolved : Option String) (editor : String) :
    InStep (c.unsubscribe rawPath resolved editor).1 := by
  obtain ⟨heq, -⟩ | ⟨key, editors, -, hlookup, ⟨hleft, heq⟩ | ⟨-, heq⟩⟩ := unsubscribe_cases c rawPath resolved editor
  · rw [heq]
    exact h
  · have hmem : key ∈ c.subscriptions := lookup_isSome.mp (isSome_of_eq_some hlookup)
    rw [heq]
    refine ⟨fun key' => ?_, fun key' editors' hlookup' => ?_⟩
    · rw [mem_insert, h.keys, iff_or_self]
      rintro rfl
      exact hmem
    · by_cases hkey : key' = key
      · rw [hkey, lookup_insert] at hlookup'
        exact some.inj hlookup' ▸ hleft
      · exact h.editors key' editors' ((lookup_insert_ne hkey).symm.trans hlookup')
  · rw [heq]
    refine ⟨fun key' => ?_, fun key' editors' hlookup' => ?_⟩
    · simp only [lookup_keys_retain, mem_erase, exists_and_right, h.keys]
      exact and_comm
    · by_cases hkey : key' = key
      · rw [hkey, lookup_erase] at hlookup'
        cases hlookup'
      · exact h.editors key' editors' ((lookup_erase_ne hkey).symm.trans hlookup')

/-! ## Nothing stays behind -/

/-- Every editor of a key was subscribed by a raw path that is still held under the key, and has not been
unsubscribed by that path. -/
def Owed (tr : List (Call × Option Unsubscribed)) (c : ConnectionState) : Prop :=
  ∀ key editors, c.subscriptions.lookup key = some editors → ∀ editor ∈ editors,
    ∃ rawPath, c.keys.lookup rawPath = some key ∧
      ∃ pre reply post, tr = pre ++ (.subscribe rawPath key editor, reply) :: post ∧
      ∀ resolved reply, (.unsubscribe rawPath resolved editor, reply) ∉ post

variable {tr : List (Call × Option Unsubscribed)}

theorem Owed.subscribe (h : Owed tr c) (hsteady : Steady c (.subscribe rawPath key editor)) :
    Owed (tr ++ [(.subscribe rawPath key editor, none)]) (c.subscribe rawPath key editor) := by
  -- what was owed before still is: the path is held under the same key
  have hold : ∀ key' editors, c.subscriptions.lookup key' = some editors → ∀ editor' ∈ editors,
      ∃ rawPath', (c.subscribe rawPath key editor).keys.lookup rawPath' = some key' ∧
        ∃ pre reply post, tr ++ [(.subscribe rawPath key editor, none)] =
          pre ++ (.subscribe rawPath' key' editor', reply) :: post ∧
            ∀ resolved reply, (.unsubscribe rawPath' resolved editor', reply) ∉ post := by
    intro key' editors hlookup editor' heditor'
    obtain ⟨rawPath', hheld, pre, reply, post, rfl, hpost⟩ := h key' editors hlookup editor' heditor'
    refine ⟨rawPath', ?_, pre, reply, post ++ [(.subscribe rawPath key editor, none)], ?_, fun resolved reply hmem => ?_⟩
    · by_cases hraw : rawPath' = rawPath
      · rw [hsteady key' (hraw ▸ hheld), hraw]
        exact lookup_insert _
      · exact (lookup_insert_ne hraw).trans hheld
    · rw [append_assoc, cons_append]
    · rcases mem_append.mp hmem with hmem | hmem
      · exact hpost resolved reply hmem
      · cases mem_singleton.mp hmem
  intro key' editors hlookup editor' heditor'
  by_cases hkey : key' = key
  · subst hkey
    rw [ConnectionState.subscribe, lookup_insert, some.injEq] at hlookup
    rw [← hlookup, Finset.mem_insert] at heditor'
    rcases heditor' with rfl | heditor'
    · exact ⟨rawPath, lookup_insert _, tr, none, [], rfl, nofun⟩
    · cases hbefore : c.subscriptions.lookup key' with
      | none => rw [hbefore] at heditor'; exact absurd heditor' (Finset.notMem_empty _)
      | some before => exact hold key' before hbefore editor' (by rwa [hbefore] at heditor')
  · exact hold key' editors ((lookup_insert_ne hkey).symm.trans hlookup) editor' heditor'

/-- What is owed after an `unsubscribe`: if the path is the one that is let go, the editor is another one. -/
theorem Owed.unsubscribe (h : Owed tr c) (rawPath : String) (resolved : Option String) (editor : String) :
    Owed (tr ++ [(.unsubscribe rawPath resolved editor, (c.unsubscribe rawPath resolved editor).2)])
      (c.unsubscribe rawPath resolved editor).1 := by
  set reply := (c.unsubscribe rawPath resolved editor).2
  set c' := (c.unsubscribe rawPath resolved editor).1 with hc'
  suffices hsuffices : ∀ key editors, c'.subscriptions.lookup key = some editors → ∀ editor' ∈ editors,
      (∃ before, c.subscriptions.lookup key = some before ∧ editor' ∈ before) ∧
        (∀ rawPath', c.keys.lookup rawPath' = some key → c'.keys.lookup rawPath' = some key) ∧
        (c.keys.lookup rawPath = some key → editor' ≠ editor) by
    intro key editors hlookup editor' heditor'
    obtain ⟨⟨before, hbefore, hmem⟩, hkeys, hother⟩ := hsuffices key editors hlookup editor' heditor'
    obtain ⟨rawPath', hheld, pre, reply', post, rfl, hpost⟩ := h key before hbefore editor' hmem
    refine ⟨rawPath', hkeys rawPath' hheld, pre, reply', post ++ [(.unsubscribe rawPath resolved editor, reply)], ?_,
      fun resolved' reply'' hmem => ?_⟩
    · rw [append_assoc, cons_append]
    · rcases mem_append.mp hmem with hmem | hmem
      · exact hpost resolved' reply'' hmem
      · cases mem_singleton.mp hmem
        exact hother hheld rfl
  intro key' editors' hlookup' editor' heditor'
  obtain ⟨heq, hnone⟩ | ⟨key, editors, hkey, hlookup, ⟨hleft, heq⟩ | ⟨-, heq⟩⟩ :=
    unsubscribe_cases c rawPath resolved editor
  · rw [hc', heq] at hlookup' ⊢
    refine ⟨⟨editors', hlookup', heditor'⟩, fun _ hheld => hheld, fun hheld => ?_⟩
    exact absurd (lookup_isSome.mp (isSome_of_eq_some hlookup')) (hnone key' hheld)
  · rw [hc', heq] at hlookup' ⊢
    by_cases hsame : key' = key
    · rw [hsame, lookup_insert, some.injEq] at hlookup'
      rw [← hlookup', Finset.mem_erase] at heditor'
      exact ⟨⟨editors, hsame ▸ hlookup, heditor'.2⟩, fun _ hheld => hheld, fun _ => heditor'.1⟩
    · refine ⟨⟨editors', (lookup_insert_ne hsame).symm.trans hlookup', heditor'⟩, fun _ hheld => hheld,
        fun hheld => ?_⟩
      rw [hheld, some_or, some.injEq] at hkey
      exact absurd hkey hsame
  · rw [hc', heq] at hlookup' ⊢
    by_cases hsame : key' = key
    · rw [hsame, lookup_erase] at hlookup'
      cases hlookup'
    · refine ⟨⟨editors', (lookup_erase_ne hsame).symm.trans hlookup', heditor'⟩,
        fun _ hheld => lookup_keys_retain.mpr ⟨hheld, hsame⟩, fun hheld => ?_⟩
      rw [hheld, some_or, some.injEq] at hkey
      exact absurd hkey hsame

theorem Matched.ended {pre post : List Call} (h : Matched (pre ++ .subscribe rawPath key editor :: post)) :
    ∃ resolved, .unsubscribe rawPath resolved editor ∈ post := by
  induction pre with
  | nil => exact h.1
  | cons call pre ih =>
    cases call with
    | subscribe => exact ih h.2
    | unsubscribe => exact ih h

theorem eq_empty_of_forall_notMem {β : Type} {m : AList fun _ : String => β} (h : ∀ key, key ∉ m) : m = ∅ := by
  refine ext (eq_nil_iff_forall_not_mem.mpr fun e he => h e.1 ?_)
  exact mem_keys.mpr (mem_map_of_mem he)

/-- **The maps stay in step**, and nothing is left when everything has been unsubscribed, as long as no raw path
that is held is subscribed under another key. -/
theorem in_step_of_steady {calls : List Call} (h : Steps step (fun _ => Steady) default calls) :
    (∀ pre, pre <+: calls → InStep (exec step default pre)) ∧
      (Matched calls → (exec step default calls).subscriptions = ∅ ∧ (exec step default calls).keys = ∅) := by
  have hrun : ∀ pre, pre <+: calls →
      InStep (exec step default pre) ∧ Owed (trace step default pre) (exec step default pre) := by
    intro pre hpre
    refine inv_of_steps (I := fun tr c => InStep c ∧ Owed tr c) ⟨inStep_default, fun key editors hlookup => ?_⟩ ?_
      (h.of_prefix hpre)
    · cases hlookup
    · rintro tr c (⟨rawPath, key, editor⟩ | ⟨rawPath, resolved, editor⟩) ⟨hstep, howed⟩ hsteady
      · exact ⟨hstep.subscribe hsteady, howed.subscribe hsteady⟩
      · exact ⟨hstep.unsubscribe rawPath resolved editor, howed.unsubscribe rawPath resolved editor⟩
  refine ⟨fun pre hpre => (hrun pre hpre).1, fun hmatched => ?_⟩
  obtain ⟨hstep, howed⟩ := hrun calls prefix_rfl
  have hsubscriptions : ∀ key, key ∉ (exec step default calls).subscriptions := by
    intro key hkey
    obtain ⟨editors, hlookup⟩ := isSome_iff_exists.mp (lookup_isSome.mpr hkey)
    obtain ⟨editor, heditor⟩ := hstep.editors key editors hlookup
    obtain ⟨rawPath, -, pre, reply, post, htrace, hpost⟩ := howed key editors hlookup editor heditor
    have hcalls := congrArg (map Prod.fst) htrace
    rw [map_fst_trace, map_append] at hcalls
    obtain ⟨resolved, hmem⟩ := (hcalls ▸ hmatched).ended
    obtain ⟨⟨call, reply'⟩, hmem, rfl⟩ := mem_map.mp hmem
    exact hpost resolved reply' hmem
  refine ⟨eq_empty_of_forall_notMem hsubscriptions, eq_empty_of_forall_notMem fun rawPath hraw => ?_⟩
  obtain ⟨key, hkey⟩ := isSome_iff_exists.mp (lookup_isSome.mpr hraw)
  exact hsubscriptions key ((hstep.keys key).mp ⟨rawPath, hkey⟩)

/-- Two editors have a file open by two paths, and the file is renamed before the last call. -/
def twoEditors : List Call :=
  [.subscribe "./a" "a" "left", .subscribe "a" "a" "right", .unsubscribe "./a" (some "a") "left",
    .unsubscribe "a" (some "b") "right"]

theorem in_step_of_two_editors :
    (∀ pre, pre <+: twoEditors → InStep (exec step default pre)) ∧
      (exec step default twoEditors).subscriptions = ∅ ∧ (exec step default twoEditors).keys = ∅ := by
  have hsteady : Steps step (fun _ => Steady) default twoEditors := by
    simp only [twoEditors, steps_cons]
    refine ⟨fun held hheld => ?_, fun held hheld => ?_, trivial, trivial, steps_nil⟩
    · cases hheld
    · have hnone : (default.subscribe "./a" "a" "left").keys.lookup "a" = none := by decide
      cases hnone.symm.trans hheld
  obtain ⟨hstep, hempty⟩ := in_step_of_steady hsteady
  exact ⟨hstep, hempty ⟨⟨_, .tail _ (.head _)⟩, ⟨_, .tail _ (.head _)⟩, trivial⟩⟩

/-- **A file is renamed while it is open**: the path then resolves to another key, which takes the place of the
first one, and the first session is never left. -/
theorem renamed_file_stays_subscribed :
    let calls : List Call := [.subscribe "a" "a" "left", .subscribe "a" "b" "left", .unsubscribe "a" (some "b") "left",
      .unsubscribe "a" (some "b") "left"]
    Matched calls ∧ ¬ InStep (exec step default (calls.take 2)) ∧
      (exec step default calls).subscriptions.lookup "a" = some {"left"} := by
  intro calls
  refine ⟨⟨⟨_, .tail _ (.head _)⟩, ⟨_, .head _⟩, trivial⟩, fun h => ?_, rfl⟩
  obtain ⟨rawPath, hheld⟩ := (h.keys "a").mpr (by decide)
  have hkeys : (exec step default (calls.take 2)).keys.entries = [⟨"a", "b"⟩] := by decide
  have hmem := mem_lookup_iff.mp (mem_def.mpr hheld)
  rw [hkeys, mem_singleton, Sigma.mk.injEq, heq_eq_eq] at hmem
  exact absurd hmem.2 (by decide)

end ConnectionState

end Wings.Collab
