import Wings.Firewall.Sets

/-!
# Wings.Firewall.Backend — `sync` and `clear` of a firewall backend

`nftables.rs` and `iptables.rs` have the same `sync`, `clear` and `sync_files` over their own
commands.  A `Backend` is those commands; which of them fail in a call is part of the call.

* `takesEffect_of_truthful` — calls that return `Ok` in such a run have taken effect.
-/

namespace Wings.Firewall

open Lib Server Filesystem AList

abbrev Rules := AList fun _ : Uuid => List ConcreteRule

/-- The commands of a backend on a kernel `K`; `F` says which of them fail.  `declareSets` is `none`
when it fails, `apply` returns whether it succeeded. -/
structure Backend (K F : Type) where
  setsAvailable : Bool
  declareSets : F → List SetBase → K → Option K
  loadFile : F → PendingLoad → K → Except LoadError Unit × K
  apply : F → Rules → K → Bool × K

structure State (K : Type) where
  rules : Rules
  files : AList fun _ : Uuid => ServerSourceFiles
  kernel : K

def State.init {K : Type} (kernel : K) : State K := ⟨∅, ∅, kernel⟩

def neededSets (servers : Rules) : List SetBase :=
  (servers.entries.flatMap fun e => setsOf e.2).dedup

/-- The calls, with the disk of the server at that time and the commands that fail. -/
inductive Call (F : Type) where
  | sync (spec : Spec) (disk : Disk) (faults : F)
  | clear (server : Uuid) (faults : F)

def Call.server {F : Type} : Call F → Uuid
  | .sync spec _ _ => spec.server
  | .clear server _ => server

section Model

variable {K F : Type} (digest : Subpath → BitVec 32) (B : Backend K F) {st : State K}

/-- `load_changed`: the pending files one after another. -/
def loadChanged (faults : F) (disk : Disk) (files : ServerSourceFiles) (kernel : K) : ServerSourceFiles × K :=
  (files.pending disk).foldl
    (fun acc load =>
      let (result, kernel) := B.loadFile faults load acc.2
      (ServerSourceFiles.record acc.1 load result, kernel))
    (files.clearMissing disk, kernel)

def syncFiles (faults : F) (disk : Disk) (spec : Spec) (st : State K) : State K :=
  let wanted := referencedFiles spec
  if wanted = [] then { st with files := st.files.erase spec.server }
  else if st.files.lookup spec.server = none ∧ spec.files = false then st
  else
    let files := ServerSourceFiles.update ((st.files.lookup spec.server).getD []) wanted
      (setBaseName digest spec.server)
    if B.setsAvailable then
      let (files, kernel) := loadChanged B faults disk files st.kernel
      { st with files := st.files.insert spec.server files, kernel }
    else { st with files := st.files.insert spec.server files }

/-- What the table holds for a server with this spec. -/
def expandedEntry (spec : Spec) : Option (List ConcreteRule) :=
  if expandRules digest spec = [] then none else some (expandRules digest spec)

def updatedRules (rules : Rules) (spec : Spec) : Rules :=
  if expandRules digest spec = [] then rules.erase spec.server
  else rules.insert spec.server (expandRules digest spec)

/-- The test of `sync` for rules that are already applied. -/
def unchanged (rules : Rules) (spec : Spec) : Bool :=
  match rules.lookup spec.server with
  | some applied => applied = expandRules digest spec
  | none => expandRules digest spec = []

def sync (faults : F) (disk : Disk) (spec : Spec) (st : State K) : State K × Bool :=
  let servers := updatedRules digest st.rules spec
  if unchanged digest st.rules spec then (syncFiles digest B faults disk spec st, true)
  else
    match B.declareSets faults (neededSets servers) st.kernel with
    | none => (st, false)
    | some kernel =>
      let st := syncFiles digest B faults disk spec { st with kernel }
      let (ok, kernel) := B.apply faults servers st.kernel
      if ok then ({ st with rules := servers, kernel }, true) else ({ st with kernel }, false)

/-- `clear`, with whether it returned `Ok`: the entry is gone before the rules are applied. -/
def clear (faults : F) (server : Uuid) (st : State K) : State K × Bool :=
  let st := { st with files := st.files.erase server }
  if server ∈ st.rules then
    let st := { st with rules := st.rules.erase server }
    let (ok, kernel) := B.apply faults st.rules st.kernel
    ({ st with kernel }, ok)
  else (st, true)

def step (st : State K) : Call F → State K × Bool
  | .sync spec disk faults => sync digest B faults disk spec st
  | .clear server faults => clear B faults server st

/-- The rules the kernel should have for the server after a call. -/
def Call.wanted : Call F → List ConcreteRule
  | .sync spec _ _ => expandRules digest spec
  | .clear _ _ => []

/-! ## Agreement of the table and the kernel -/

/-- Different servers of the table have different chains. -/
def Distinct (rules : Rules) : Prop :=
  ∀ s ∈ rules, ∀ s' ∈ rules, serverDigits s = serverDigits s' → s = s'

/-- What the commands promise: sets have no effect on the rules the kernel shows; rules that could be
applied are shown; when they could not, the rules before are.  `Safe` are the failures in a `sync` under which
that holds, `Clean` those in a `clear`. -/
structure Truthful (Shows : Rules → K → Prop) (Safe : F → Rules → Rules → Prop) (Clean : F → Prop) :
    Prop where
  declareSets : ∀ {f bases r k k'}, Shows r k → B.declareSets f bases k = some k' → Shows r k'
  loadFile : ∀ {f load r k}, Shows r k → Shows r (B.loadFile f load k).2
  apply_ok : ∀ {f r r' k}, Shows r k → Distinct r' → Safe f r r' → (B.apply f r' k).1 = true →
    Shows r' (B.apply f r' k).2
  apply_err : ∀ {f r r' k}, Shows r k → Distinct r' → Safe f r r' → (B.apply f r' k).1 = false →
    Shows r (B.apply f r' k).2
  apply_clean : ∀ {f r r' k}, Shows r k → Distinct r' → Clean f →
    (B.apply f r' k).1 = true ∧ Shows r' (B.apply f r' k).2

/-- The condition on a call: no other server of the table has the chain of its server, a `sync` fails only
safely, and a `clear` of a server in the table not at all. -/
def Calm (Safe : F → Rules → Rules → Prop) (Clean : F → Prop) (_ : List (Call F × Bool))
    (st : State K) : Call F → Prop
  | .sync spec _ f => (∀ s ∈ st.rules, serverDigits s = serverDigits spec.server → s = spec.server) ∧
      Safe f st.rules (updatedRules digest st.rules spec)
  | .clear server f => (∀ s ∈ st.rules, serverDigits s = serverDigits server → s = server) ∧
      (server ∈ st.rules → Clean f)

variable {digest B} {Shows : Rules → K → Prop} {Safe : F → Rules → Rules → Prop} {Clean : F → Prop} {spec : Spec}
  {rules : Rules}

/-- It is enough that rules are applied and shown, or fail and leave the kernel as it was. -/
theorem truthful_of_apply (hdeclare : ∀ {f bases r k k'}, Shows r k → B.declareSets f bases k = some k' → Shows r k')
    (hload : ∀ {f load r k}, Shows r k → Shows r (B.loadFile f load k).2)
    (happly : ∀ {f r r' k}, Shows r k → Distinct r' → Safe f r r' ∨ Clean f →
      ¬ Clean f ∧ B.apply f r' k = (false, k) ∨ (B.apply f r' k).1 = true ∧ Shows r' (B.apply f r' k).2) :
    Truthful B Shows Safe Clean where
  declareSets := hdeclare
  loadFile := hload
  apply_ok hk hr hsafe hok := by
    obtain ⟨-, hfailed⟩ | hdone := happly hk hr (.inl hsafe)
    · rw [hfailed] at hok; cases hok
    · exact hdone.2
  apply_err hk hr hsafe herr := by
    obtain ⟨-, hfailed⟩ | hdone := happly hk hr (.inl hsafe)
    · rw [hfailed]; exact hk
    · rw [hdone.1] at herr; cases herr
  apply_clean hk hr hclean := (happly hk hr (.inr hclean)).resolve_left fun h => h.1 hclean

theorem loadChanged_shows (hB : Truthful B Shows Safe Clean) {f : F} {disk : Disk}
    {files : ServerSourceFiles} {r : Rules} {k : K} (hk : Shows r k) :
    Shows r (loadChanged B f disk files k).2 := by
  have hfold : ∀ (loads : List PendingLoad) (acc : ServerSourceFiles × K), Shows r acc.2 →
      Shows r (loads.foldl (fun acc load => (ServerSourceFiles.record acc.1 load
        (B.loadFile f load acc.2).1, (B.loadFile f load acc.2).2)) acc).2 := by
    intro loads
    induction loads with
    | nil => exact fun acc hacc => hacc
    | cons load loads ih => exact fun acc hacc => ih _ (hB.loadFile hacc)
  exact hfold _ _ hk

theorem rules_syncFiles (f : F) (disk : Disk) (spec : Spec) (st : State K) :
    (syncFiles digest B f disk spec st).rules = st.rules := by
  simp only [syncFiles]
  split_ifs <;> rfl

theorem syncFiles_shows (hB : Truthful B Shows Safe Clean) (digest : Subpath → BitVec 32) (f : F)
    (disk : Disk) (spec : Spec) (st : State K) {r : Rules} (hk : Shows r st.kernel) :
    Shows r (syncFiles digest B f disk spec st).kernel := by
  simp only [syncFiles]
  split_ifs
  · exact hk
  · exact hk
  · exact loadChanged_shows hB hk
  · exact hk

theorem mem_updatedRules {s : Uuid} (h : s ∈ updatedRules digest rules spec) : s ∈ rules ∨ s = spec.server := by
  unfold updatedRules at h
  split_ifs at h
  · exact .inl (mem_erase.mp h).2
  · exact ((mem_insert _).mp h).symm

theorem lookup_updatedRules (rules : Rules) (spec : Spec) :
    (updatedRules digest rules spec).lookup spec.server = expandedEntry digest spec := by
  unfold updatedRules expandedEntry
  split_ifs
  · exact lookup_erase _ _
  · exact lookup_insert _

theorem lookup_of_unchanged (hne : ∀ s, rules.lookup s ≠ some []) (h : unchanged digest rules spec = true) :
    rules.lookup spec.server = expandedEntry digest spec := by
  unfold unchanged at h
  unfold expandedEntry
  cases hl : rules.lookup spec.server with
  | none =>
    simp only [hl, decide_eq_true_eq] at h
    rw [if_pos h]
  | some applied =>
    simp only [hl, decide_eq_true_eq] at h
    have := hne spec.server
    rw [if_neg (fun hnil => this (by rw [hl, h, hnil])), h]

theorem distinct_of_fresh {server : Uuid} (h : Distinct rules)
    (hserver : ∀ s ∈ rules, serverDigits s = serverDigits server → s = server) {rules' : Rules}
    (hsub : ∀ s ∈ rules', s ∈ rules ∨ s = server) : Distinct rules' := by
  intro s hs s' hs' heq
  rcases hsub s hs with hs | rfl <;> rcases hsub s' hs' with hs' | rfl
  · exact h s hs s' hs' heq
  · exact hserver s hs heq
  · exact (hserver s' hs' heq.symm).symm
  · rfl

/-- What the table and the kernel satisfy between calls. -/
structure Agrees (Shows : Rules → K → Prop) (st : State K) : Prop where
  shows : Shows st.rules st.kernel
  distinct : Distinct st.rules
  nonempty : ∀ s, st.rules.lookup s ≠ some []

theorem nonempty_updatedRules (h : ∀ s, rules.lookup s ≠ some []) (s : Uuid) :
    (updatedRules digest rules spec).lookup s ≠ some [] := by
  by_cases hs : s = spec.server
  · rw [hs, lookup_updatedRules, expandedEntry]
    split_ifs with hnil
    · simp
    · simpa using hnil
  · unfold updatedRules
    split_ifs
    · rw [lookup_erase_ne hs]
      exact h s
    · rw [lookup_insert_ne hs]
      exact h s

inductive Synced (digest : Subpath → BitVec 32) (B : Backend K F) (f : F) (disk : Disk)
    (spec : Spec) (st : State K) : State K × Bool → Prop
  | same (hsame : unchanged digest st.rules spec = true) :
      Synced digest B f disk spec st (syncFiles digest B f disk spec st, true)
  | undeclared : Synced digest B f disk spec st (st, false)
  | applied (k : K) (st₁ : State K) (hsame : unchanged digest st.rules spec = false)
      (hdeclare : B.declareSets f (neededSets (updatedRules digest st.rules spec)) st.kernel = some k)
      (hfiles : st₁ = syncFiles digest B f disk spec { st with kernel := k })
      (hok : (B.apply f (updatedRules digest st.rules spec) st₁.kernel).1 = true) :
      Synced digest B f disk spec st
        ({ st₁ with
            rules := updatedRules digest st.rules spec
            kernel := (B.apply f (updatedRules digest st.rules spec) st₁.kernel).2 }, true)
  | failed (k : K) (st₁ : State K)
      (hdeclare : B.declareSets f (neededSets (updatedRules digest st.rules spec)) st.kernel = some k)
      (hfiles : st₁ = syncFiles digest B f disk spec { st with kernel := k })
      (herr : (B.apply f (updatedRules digest st.rules spec) st₁.kernel).1 = false) :
      Synced digest B f disk spec st
        ({ st₁ with kernel := (B.apply f (updatedRules digest st.rules spec) st₁.kernel).2 }, false)

theorem synced_sync (f : F) (disk : Disk) (spec : Spec) (st : State K) :
    Synced digest B f disk spec st (sync digest B f disk spec st) := by
  simp only [sync]
  cases hsame : unchanged digest st.rules spec with
  | true => exact .same hsame
  | false =>
    simp only [Bool.false_eq_true, if_false]
    cases hdeclare : B.declareSets f (neededSets (updatedRules digest st.rules spec)) st.kernel with
    | none => exact .undeclared
    | some k =>
      dsimp only
      split_ifs with hok
      · exact .applied k _ hsame hdeclare rfl hok
      · exact .failed k _ hdeclare rfl (by simpa using hok)

/-- The table after `sync`: as before or updated, and with the rules of its server when `sync` returns `Ok`. -/
theorem rules_sync (hne : ∀ s, st.rules.lookup s ≠ some []) {disk : Disk}
    {f : F} {res : State K × Bool} (h : Synced digest B f disk spec st res) :
    (res.1.rules = st.rules ∨ res.1.rules = updatedRules digest st.rules spec) ∧
      (res.2 = true → res.1.rules.lookup spec.server = expandedEntry digest spec) := by
  cases h with
  | same hsame =>
    rw [rules_syncFiles]
    exact ⟨.inl rfl, fun _ => lookup_of_unchanged hne hsame⟩
  | undeclared => exact ⟨.inl rfl, nofun⟩
  | applied k st₁ _ hdeclare hfiles hok =>
    exact ⟨.inr rfl, fun _ => lookup_updatedRules st.rules spec⟩
  | failed k st₁ hdeclare hfiles herr =>
    refine ⟨.inl ?_, nofun⟩
    rw [hfiles, rules_syncFiles]

section

variable (hB : Truthful B Shows Safe Clean) (hst : Agrees Shows st)
include hB hst

variable {tr : List (Call F × Bool)}

theorem agrees_sync {disk : Disk} {f : F} (hcalm : Calm digest Safe Clean tr st (.sync spec disk f))
    {res : State K × Bool} (h : Synced digest B f disk spec st res) : Agrees Shows res.1 := by
  obtain ⟨hserver, hsafe⟩ := hcalm
  have hdistinct : Distinct (updatedRules digest st.rules spec) :=
    distinct_of_fresh hst.distinct hserver fun s => mem_updatedRules
  cases h with
  | same hsame =>
    have hrules : (syncFiles digest B f disk spec st).rules = st.rules := rules_syncFiles f disk spec st
    exact ⟨hrules ▸ syncFiles_shows hB digest f disk spec st hst.shows, hrules ▸ hst.distinct, hrules ▸ hst.nonempty⟩
  | undeclared => exact hst
  | applied k st₁ _ hdeclare hfiles hok =>
    have hk : Shows st.rules st₁.kernel := hfiles ▸ syncFiles_shows hB digest f disk spec _
      (hB.declareSets hst.shows hdeclare)
    exact ⟨hB.apply_ok hk hdistinct hsafe hok, hdistinct, nonempty_updatedRules hst.nonempty⟩
  | failed k st₁ hdeclare hfiles herr =>
    have hk : Shows st.rules st₁.kernel := hfiles ▸ syncFiles_shows hB digest f disk spec _
      (hB.declareSets hst.shows hdeclare)
    have hrules : st₁.rules = st.rules := by rw [hfiles, rules_syncFiles]
    refine ⟨?_, hrules ▸ hst.distinct, hrules ▸ hst.nonempty⟩
    rw [hrules]
    exact hB.apply_err hk hdistinct hsafe herr

theorem agrees_clear {server : Uuid} {f : F} (hclean : server ∈ st.rules → Clean f) :
    Agrees Shows (clear B f server st).1 ∧
      (clear B f server st).1.rules.lookup server = none ∧
      ∀ s, s ≠ server → (clear B f server st).1.rules.lookup s = st.rules.lookup s := by
  simp only [clear]
  split_ifs with hmem
  · have hdistinct : Distinct (st.rules.erase server) := fun s hs s' hs' =>
      hst.distinct s (mem_erase.mp hs).2 s' (mem_erase.mp hs').2
    refine ⟨⟨(hB.apply_clean hst.shows hdistinct (hclean hmem)).2, hdistinct, fun s => ?_⟩,
      lookup_erase _ _, fun s hs => lookup_erase_ne hs⟩
    by_cases hs : s = server
    · subst hs
      simp [lookup_erase]
    · rw [lookup_erase_ne hs]
      exact hst.nonempty s
  · exact ⟨{ hst with }, lookup_eq_none.mpr hmem, fun s hs => rfl⟩

theorem agrees_step {call : Call F} (hcalm : Calm digest Safe Clean tr st call) :
    Agrees Shows (step digest B st call).1 := by
  cases call with
  | sync spec disk f => exact agrees_sync hB hst hcalm (synced_sync f disk spec st)
  | clear server f => exact (agrees_clear hB hst hcalm.2).1

/-- **The table of rules and the kernel agree** in every calm run. -/
theorem agrees_of_steps {calls : List (Call F)} (h : Steps (step digest B) (Calm digest Safe Clean) st calls) :
    Agrees Shows (exec (step digest B) st calls) :=
  inv_of_steps (I := fun _ st => Agrees Shows st) hst (fun _ _ _ hs hg => agrees_step hB hs hg) h

end

/-! ## Calls that return `Ok` -/

/-- In every run from a bare kernel whose calls meet the condition, after a call that returns `Ok` the
kernel has installed what the call asks for. -/
def TakesEffect (digest : Subpath → BitVec 32) (B : Backend K F) (Safe : F → Rules → Rules → Prop)
    (Clean : F → Prop) (Bare : K → Prop) (Installed : K → Uuid → List ConcreteRule → Prop) : Prop :=
  ∀ (k : K) (calls : List (Call F)) (call : Call F), Bare k →
    Steps (step digest B) (Calm digest Safe Clean) (.init k) (calls ++ [call]) →
    (step digest B (exec (step digest B) (.init k) calls) call).2 = true →
    Installed (exec (step digest B) (.init k) (calls ++ [call])).kernel call.server (call.wanted digest)

theorem takesEffect_of_truthful (hB : Truthful B Shows Safe Clean) {Bare : K → Prop}
    {Installed : K → Uuid → List ConcreteRule → Prop} (hbare : ∀ k, Bare k → Shows ∅ k)
    (hread : ∀ r k server, Shows r k → (∀ s ∈ r, serverDigits s = serverDigits server → s = server) →
      r.lookup server ≠ some [] → Installed k server ((r.lookup server).getD [])) :
    TakesEffect digest B Safe Clean Bare Installed := by
  intro k calls call hk hsteps hok
  obtain ⟨hsteps, hcalm⟩ := steps_concat.mp hsteps
  have hst : Agrees Shows (exec (step digest B) (.init k) calls) :=
    agrees_of_steps hB ⟨hbare k hk, fun s hs => absurd hs (notMem_empty s), fun s hs => by cases hs⟩ hsteps
  rw [exec_concat]
  generalize exec (step digest B) (.init k) calls = st at hst hcalm hok
  cases call with
  | sync spec disk f =>
    have hsync : Synced digest B f disk spec st (sync digest B f disk spec st) :=
      synced_sync f disk spec st
    obtain ⟨hrules, hlookup⟩ := rules_sync hst.nonempty hsync
    have hagrees := agrees_sync hB hst hcalm hsync
    have hserver : ∀ s ∈ (sync digest B f disk spec st).1.rules,
        serverDigits s = serverDigits spec.server → s = spec.server := by
      intro s hs hdigits
      rcases hrules with hrules | hrules <;> rw [hrules] at hs
      · exact hcalm.1 s hs hdigits
      · exact (mem_updatedRules hs).elim (fun hs => hcalm.1 s hs hdigits) id
    have hinst := hread _ _ spec.server hagrees.shows hserver (hagrees.nonempty _)
    rw [hlookup hok, expandedEntry] at hinst
    split_ifs at hinst with hnone
    · rw [Option.getD_none, ← hnone] at hinst
      exact hinst
    · exact hinst
  | clear server f =>
    obtain ⟨hagrees, hlookup, hother⟩ := agrees_clear hB hst hcalm.2
    have hserver : ∀ s ∈ (clear B f server st).1.rules, serverDigits s = serverDigits server → s = server := by
      intro s hs hdigits
      by_contra hne
      rw [← lookup_isSome, hother s hne, lookup_isSome] at hs
      exact hne (hcalm.1 s hs hdigits)
    have hinst := hread _ _ server hagrees.shows hserver (hagrees.nonempty _)
    rw [hlookup] at hinst
    exact hinst

end Model

end Wings.Firewall
