import Mathlib.Data.List.AList
import Mathlib.Data.Finset.Basic
import Wings.Lib.MachineInt
import Wings.Lib.Run

/-!
# Wings.Server.Permissions — the permissions held for the users of one server

`server/permissions.rs`.  The panel evaluates a user's grants at some panel time (unix
milliseconds); wings learns them from a fetch (`setFetchedPermissions`) or from a token
(`setTokenPermissions`), and three stamps decide what may still be applied: the `asOf` of the held
entry, the per-user invalidation and the invalidation of everybody.

* **`heldNewest_iff_noLateGrant`**
-/

namespace Wings.Server

open Wings.Lib AList Option

abbrev Uuid := BitVec 128

/-! ## Permissions -/

inductive Permission
  | all
  | metaCalagopus
  | websocketConnect
  | controlReadConsole
  | controlConsole
  | controlStart
  | controlStop
  | controlRestart
  | adminWebsocketErrors
  | adminWebsocketInstall
  | adminWebsocketTransfer
  | backupRead
  | scheduleRead
  | fileRead
  | fileReadContent
  | fileCreate
  | fileUpdate
  | fileDelete
  | fileArchive
  | fileSftp
  deriving DecidableEq, Repr

/-- Admin permissions are never implied by the wildcard. -/
def Permission.isAdmin : Permission → Bool
  | adminWebsocketErrors | adminWebsocketInstall | adminWebsocketTransfer => true
  | _ => false

abbrev Permissions := Finset Permission

namespace Permissions

def isCalagopus (ps : Permissions) : Bool := decide (Permission.metaCalagopus ∈ ps)

def hasPermission (ps : Permissions) (p : Permission) : Bool :=
  (decide (Permission.all ∈ ps) && !p.isAdmin) || decide (p ∈ ps)

def hasCalagopusPermissionOr (ps : Permissions) (p : Permission) (default : Bool) : Bool :=
  if ps.isCalagopus then ps.hasPermission p else default

end Permissions

/-! ## The map -/

/-- A subuser's compiled deny-list over the list type `ι` of the ignore matcher.  A list that does
not compile hides everything. -/
inductive IgnoredFiles (ι : Type)
  | unrestricted
  | matcher (list : ι)
  | unusable

/-- One held entry.  `asOf` is the panel time at which the permissions were evaluated. -/
structure UserPermissions (ι : Type) where
  permissions : Permissions
  ignoredFiles : IgnoredFiles ι
  asOf : ℤ

/-- The state behind the mutex.  The stamp of everybody starts at "never", `i64::MIN`, and only
grows. -/
structure Inner (ι : Type) where
  users : AList fun _ : Uuid => UserPermissions ι
  invalidated : AList fun _ : Uuid => ℤ
  invalidatedAll : ℤ
  never_le : i64Min ≤ invalidatedAll

/-- The map: the locked state and everything sent on the removal channel so far. -/
structure UserPermissionsMap (ι : Type) where
  inner : Inner ι
  removals : List Uuid

inductive TokenVerdict
  | applied
  | kept
  | stale
  deriving DecidableEq, Repr

inductive FetchVerdict
  | applied
  | superseded
  | outdated
  deriving DecidableEq, Repr

def Inner.default (ι : Type) : Inner ι := ⟨∅, ∅, i64Min, le_rfl⟩

def UserPermissionsMap.default (ι : Type) : UserPermissionsMap ι := ⟨Inner.default ι, []⟩

section Model

variable {ι : Type}

/-- `IgnoredFiles::compile`, with the matcher's own compiler as a parameter. -/
def IgnoredFiles.compile (tryFromLines : List String → Option ι) (patterns : List String) : IgnoredFiles ι :=
  if patterns.isEmpty then .unrestricted
  else match tryFromLines patterns with
    | some list => .matcher list
    | none => .unusable

namespace Inner

def invalidatedAt (s : Inner ι) (user : Uuid) : ℤ :=
  max ((s.invalidated.lookup user).getD i64Min) s.invalidatedAll

def invalidate (s : Inner ι) (user : Uuid) (asOf : ℤ) : Inner ι :=
  { s with invalidated :=
      s.invalidated.insert user (max ((s.invalidated.lookup user).getD asOf) asOf) }

end Inner

namespace UserPermissionsMap

/-- `with_user` without its access time. -/
def withUser {α : Type} (m : UserPermissionsMap ι) (user : Uuid) (f : Permissions → IgnoredFiles ι → α) : Option α :=
  (m.inner.users.lookup user).map fun u => f u.permissions u.ignoredFiles

def hasPermission (m : UserPermissionsMap ι) (user : Uuid) (p : Permission) : Bool :=
  (m.withUser user fun ps _ => ps.hasPermission p).getD false

def hasCalagopusPermissionOr (m : UserPermissionsMap ι) (user : Uuid) (p : Permission) (default : Bool) : Bool :=
  (m.withUser user fun ps _ => ps.hasCalagopusPermissionOr p default).getD default

variable (tryFromLines : List String → Option ι)

/-- `apply_permissions`: an empty set removes the entry and announces the removal, anything else
replaces the permissions and keeps the deny-list when none is given. -/
def applyPermissions (m : UserPermissionsMap ι) (user : Uuid) (permissions : Permissions)
    (ignoredFiles : Option (List String)) (asOf : ℤ) : UserPermissionsMap ι :=
  if permissions = ∅ then
    match m.inner.users.lookup user with
    | some _ => ⟨{ m.inner with users := m.inner.users.erase user }, m.removals ++ [user]⟩
    | none => m
  else
    let ignored := ignoredFiles.map (IgnoredFiles.compile tryFromLines)
    let entry : UserPermissions ι :=
      match m.inner.users.lookup user with
      | some u => ⟨permissions, ignored.getD u.ignoredFiles, asOf⟩
      | none => ⟨permissions, ignored.getD .unrestricted, asOf⟩
    { m with inner := { m.inner with users := m.inner.users.insert user entry } }

def setFetchedPermissions (m : UserPermissionsMap ι) (user : Uuid) (permissions : Permissions)
    (ignoredFiles : Option (List String)) (asOf : ℤ) : UserPermissionsMap ι × FetchVerdict :=
  if asOf ≤ m.inner.invalidatedAt user then (m, .outdated)
  else if (m.inner.users.lookup user).any fun u => decide (u.asOf > asOf) then (m, .superseded)
  else (m.applyPermissions tryFromLines user permissions ignoredFiles asOf, .applied)

/-- The stamp of a token: its issue second in milliseconds, "never" without one. -/
def tokenStamp (issuedAt : Option ℤ) : ℤ :=
  issuedAt.elim i64Min fun t => saturatingMul t 1000

def setTokenPermissions (m : UserPermissionsMap ι) (user : Uuid) (issuedAt : Option ℤ)
    (permissions : Permissions) (ignoredFiles : Option (List String)) :
    UserPermissionsMap ι × TokenVerdict :=
  let stamp := tokenStamp issuedAt
  if stamp ≤ m.inner.invalidatedAt user then (m, .stale)
  else if (m.inner.users.lookup user).any fun u => decide (u.asOf ≥ stamp) then (m, .kept)
  else (m.applyPermissions tryFromLines user permissions ignoredFiles stamp, .applied)

/-- `invalidate`: held permissions stay, the answer says whether there are any. -/
def invalidate (m : UserPermissionsMap ι) (user : Uuid) (asOf : ℤ) : UserPermissionsMap ι × Bool :=
  ({ m with inner := m.inner.invalidate user asOf }, (m.inner.users.lookup user).isSome)

/-- `invalidate_all`, answering the users that hold permissions. -/
def invalidateAll (m : UserPermissionsMap ι) (asOf : ℤ) : UserPermissionsMap ι × List Uuid :=
  ({ m with inner :=
      { m.inner with
        invalidatedAll := max m.inner.invalidatedAll asOf
        never_le := le_max_of_le_left m.inner.never_le } },
    m.inner.users.keys)

/-- `revoke`: invalidates, and drops the entry unless it was evaluated after `asOf`. -/
def revoke (m : UserPermissionsMap ι) (user : Uuid) (asOf : ℤ) : UserPermissionsMap ι :=
  let inner := m.inner.invalidate user asOf
  if (inner.users.lookup user).any fun u => decide (u.asOf ≤ asOf) then
    ⟨{ inner with users := inner.users.erase user }, m.removals ++ [user]⟩
  else { m with inner := inner }

end UserPermissionsMap

/-! ## The calls as a machine -/

inductive Call
  | setFetchedPermissions (user : Uuid) (permissions : Permissions)
      (ignoredFiles : Option (List String)) (asOf : ℤ)
  | setTokenPermissions (user : Uuid) (issuedAt : Option ℤ) (permissions : Permissions)
      (ignoredFiles : Option (List String))
  | invalidate (user : Uuid) (asOf : ℤ)
  | invalidateAll (asOf : ℤ)
  | revoke (user : Uuid) (asOf : ℤ)

inductive Reply
  | fetch (v : FetchVerdict)
  | token (v : TokenVerdict)
  | held (b : Bool)
  | users (us : List Uuid)
  | unit
  deriving DecidableEq

def Call.step (tryFromLines : List String → Option ι) (m : UserPermissionsMap ι) :
    Call → UserPermissionsMap ι × Reply
  | .setFetchedPermissions user ps ig asOf =>
    ((m.setFetchedPermissions tryFromLines user ps ig asOf).1,
      .fetch (m.setFetchedPermissions tryFromLines user ps ig asOf).2)
  | .setTokenPermissions user iat ps ig =>
    ((m.setTokenPermissions tryFromLines user iat ps ig).1,
      .token (m.setTokenPermissions tryFromLines user iat ps ig).2)
  | .invalidate user asOf => ((m.invalidate user asOf).1, .held (m.invalidate user asOf).2)
  | .invalidateAll asOf => ((m.invalidateAll asOf).1, .users (m.invalidateAll asOf).2)
  | .revoke user asOf => (m.revoke user asOf, .unit)

/-- A panel evaluation: for whom, at which panel time, with which grants. -/
structure Evaluation where
  user : Uuid
  asOf : ℤ
  permissions : Permissions
  deriving DecidableEq

def Call.evaluation : Call → Option Evaluation
  | .setFetchedPermissions user ps _ asOf => some ⟨user, asOf, ps⟩
  | .setTokenPermissions user iat ps _ => some ⟨user, UserPermissionsMap.tokenStamp iat, ps⟩
  | _ => none

def Reply.isApplied : Reply → Bool
  | .fetch v => v == .applied
  | .token v => v == .applied
  | _ => false

/-- The evaluations for `user` that the calls of a trace were answered `Applied` for. -/
def appliedTo (user : Uuid) (tr : List (Call × Reply)) : List Evaluation :=
  tr.filterMap fun cr => if cr.2.isApplied then cr.1.evaluation.filter (·.user = user) else none

open UserPermissionsMap

theorem appliedTo_concat (user : Uuid) (tr : List (Call × Reply)) (c : Call) (r : Reply) :
    appliedTo user (tr ++ [(c, r)]) = appliedTo user tr ++
      (if r.isApplied then c.evaluation.filter (·.user = user) else none).toList := by
  unfold appliedTo
  rw [List.filterMap_append, List.filterMap_cons]
  cases (if r.isApplied then c.evaluation.filter (·.user = user) else none) <;> rfl

/-! ## What one call does to the stamps of a user -/

namespace Inner

theorem invalidatedAt_le_invalidate (s : Inner ι) (user other : Uuid) (asOf : ℤ) :
    s.invalidatedAt other ≤ (s.invalidate user asOf).invalidatedAt other := by
  unfold invalidatedAt invalidate
  by_cases h : other = user
  · subst h
    have hn := s.never_le
    cases hl : s.invalidated.lookup other with
    | none => simp only [lookup_insert, getD_none, getD_some]; omega
    | some t => simp only [lookup_insert, getD_some]; omega
  · rw [lookup_insert_ne h]

theorem le_invalidate (s : Inner ι) (user : Uuid) (asOf : ℤ) : asOf ≤ (s.invalidate user asOf).invalidatedAt user := by
  simp only [invalidatedAt, invalidate, lookup_insert, getD_some]
  omega

end Inner

namespace UserPermissionsMap

variable (tryFromLines : List String → Option ι) (m : UserPermissionsMap ι)

def held (m : UserPermissionsMap ι) (user : Uuid) : Option (UserPermissions ι) :=
  m.inner.users.lookup user

theorem hasPermission_eq_true {m : UserPermissionsMap ι} {user : Uuid} {p : Permission} :
    m.hasPermission user p = true ↔ ∃ u, m.held user = some u ∧ u.permissions.hasPermission p := by
  unfold hasPermission withUser held
  cases m.inner.users.lookup user <;> simp

variable (user : Uuid)

/-- `apply_permissions` moves no stamp, and only what is held for the user. -/
theorem applyPermissions_spec (ps : Permissions) (ig : Option (List String)) (t : ℤ) :
    let m' := m.applyPermissions tryFromLines user ps ig t
    (∀ other, m'.inner.invalidatedAt other = m.inner.invalidatedAt other) ∧
      (∀ other, other ≠ user → m'.held other = m.held other) ∧ (ps = ∅ → m'.held user = none) ∧
      (ps ≠ ∅ → ∃ u, m'.held user = some u ∧ u.permissions = ps ∧ u.asOf = t) := by
  unfold applyPermissions held
  dsimp only
  split_ifs with hp
  · cases h : m.inner.users.lookup user with
    | none => exact ⟨fun _ => rfl, fun _ _ => rfl, fun _ => h, absurd hp⟩
    | some u => exact ⟨fun _ => rfl, fun _ hne => lookup_erase_ne hne, fun _ => lookup_erase _ _, absurd hp⟩
  · refine ⟨fun _ => rfl, fun _ hne => lookup_insert_ne hne, (absurd · hp), fun _ => ⟨_, lookup_insert _, ?_⟩⟩
    cases m.inner.users.lookup user <;> exact ⟨rfl, rfl⟩

theorem revoke_held_ne {user other : Uuid} (h : other ≠ user) (t : ℤ) :
    (m.revoke user t).held other = m.held other := by
  unfold revoke held
  dsimp only
  split_ifs with hr
  · exact lookup_erase_ne h
  · rfl

theorem revoke_invalidatedAt (user other : Uuid) (t : ℤ) : (m.revoke user t).inner.invalidatedAt other =
      (m.inner.invalidate user t).invalidatedAt other := by
  unfold revoke
  dsimp only
  split_ifs <;> rfl

/-- A revocation keeps the entry, or the entry is not newer than the revocation and goes. -/
theorem revoke_held (t : ℤ) : (m.revoke user t).held user = m.held user ∨
      ∃ u, m.held user = some u ∧ u.asOf ≤ t ∧ (m.revoke user t).held user = none := by
  by_cases hr : ((m.inner.invalidate user t).users.lookup user).any fun u => decide (u.asOf ≤ t)
  · right
    obtain ⟨u, hu, ht⟩ := (any_eq_true _ _).mp hr
    refine ⟨u, hu, of_decide_eq_true ht, ?_⟩
    simp only [revoke, hr, if_true, held]
    exact lookup_erase _ _
  · left
    simp only [revoke, hr, held]
    rfl

end UserPermissionsMap

/-- The freshness tests of the two `set` calls: the evaluation is younger than every invalidation
of the user, and the held entry is not newer (for a token: is older). -/
def Call.LetThrough (m : UserPermissionsMap ι) : Call → Prop
  | .setFetchedPermissions user _ _ asOf =>
    m.inner.invalidatedAt user < asOf ∧ ∀ u, m.held user = some u → u.asOf ≤ asOf
  | .setTokenPermissions user iat _ _ =>
    m.inner.invalidatedAt user < UserPermissionsMap.tokenStamp iat ∧
      ∀ u, m.held user = some u → u.asOf < UserPermissionsMap.tokenStamp iat
  | _ => False

/-- The call is answered `Applied` for `e`: what it saw and what it left. -/
structure Applies (m m' : UserPermissionsMap ι) (e : Evaluation) : Prop where
  young : m.inner.invalidatedAt e.user < e.asOf
  newest : ∀ u, m.held e.user = some u → u.asOf ≤ e.asOf
  stamps : ∀ user, m'.inner.invalidatedAt user = m.inner.invalidatedAt user
  others : ∀ user, user ≠ e.user → m'.held user = m.held user
  empty : e.permissions = ∅ → m'.held e.user = none
  grant : e.permissions ≠ ∅ → ∃ u, m'.held e.user = some u ∧ u.permissions = e.permissions ∧ u.asOf = e.asOf

section Step

variable (tryFromLines : List String → Option ι) {m : UserPermissionsMap ι}

theorem applies_applyPermissions {user : Uuid} {ps : Permissions} {ig : Option (List String)}
    {t : ℤ} (hy : m.inner.invalidatedAt user < t) (hn : ∀ u, m.held user = some u → u.asOf ≤ t) :
    Applies m (m.applyPermissions tryFromLines user ps ig t) ⟨user, t, ps⟩ :=
  have ⟨hstamps, hothers, hempty, hgrant⟩ := m.applyPermissions_spec tryFromLines user ps ig t
  ⟨hy, hn, hstamps, hothers, hempty, hgrant⟩

/-- A `set` call that passes the freshness tests is applied; any other changes nothing. -/
theorem step_of_evaluation {c : Call} {e : Evaluation} (he : c.evaluation = some e) :
    c.LetThrough m ∧ (c.step tryFromLines m).2.isApplied = true ∧ Applies m (c.step tryFromLines m).1 e ∨
      ¬ c.LetThrough m ∧ (c.step tryFromLines m).2.isApplied = false ∧ (c.step tryFromLines m).1 = m := by
  cases c with
  | setFetchedPermissions user ps ig t =>
    cases he
    simp only [Call.step, setFetchedPermissions]
    split_ifs with hy hany
    · exact .inr ⟨fun h => absurd h.1 (not_lt.mpr hy), rfl, rfl⟩
    · obtain ⟨u, hu, hgt⟩ := (any_eq_true _ _).mp hany
      exact .inr ⟨fun h => absurd (h.2 u hu) (not_le.mpr (of_decide_eq_true hgt)), rfl, rfl⟩
    · have hn : ∀ u, m.held user = some u → u.asOf ≤ t := fun u hu =>
        not_lt.mp fun hlt => hany ((any_eq_true _ _).mpr ⟨u, hu, decide_eq_true hlt⟩)
      exact .inl ⟨⟨not_le.mp hy, hn⟩, rfl, applies_applyPermissions tryFromLines (not_le.mp hy) hn⟩
  | setTokenPermissions user iat ps ig =>
    cases he
    simp only [Call.step, setTokenPermissions]
    split_ifs with hy hany
    · exact .inr ⟨fun h => absurd h.1 (not_lt.mpr hy), rfl, rfl⟩
    · obtain ⟨u, hu, hge⟩ := (any_eq_true _ _).mp hany
      exact .inr ⟨fun h => absurd (h.2 u hu) (not_lt.mpr (of_decide_eq_true hge)), rfl, rfl⟩
    · have hn : ∀ u, m.held user = some u → u.asOf < tokenStamp iat := fun u hu =>
        not_le.mp fun hle => hany ((any_eq_true _ _).mpr ⟨u, hu, decide_eq_true hle⟩)
      refine .inl ⟨⟨not_le.mp hy, hn⟩, rfl, ?_⟩
      exact applies_applyPermissions tryFromLines (not_le.mp hy) fun u hu => (hn u hu).le
  | _ => cases he

/-- The stamp-moving calls: nothing is applied, no stamp goes back, and an entry that goes is not
newer than its user's invalidation. -/
theorem step_of_no_evaluation {c : Call} (he : c.evaluation = none) (user : Uuid) :
    (c.step tryFromLines m).2.isApplied = false ∧
    m.inner.invalidatedAt user ≤ (c.step tryFromLines m).1.inner.invalidatedAt user ∧
    ((c.step tryFromLines m).1.held user = m.held user ∨
      ∃ u, m.held user = some u ∧ (c.step tryFromLines m).1.held user = none ∧
        u.asOf ≤ (c.step tryFromLines m).1.inner.invalidatedAt user) := by
  cases c with
  | setFetchedPermissions user ps ig t => cases he
  | setTokenPermissions user iat ps ig => cases he
  | invalidate user' t =>
    exact ⟨rfl, m.inner.invalidatedAt_le_invalidate user' user t, Or.inl rfl⟩
  | invalidateAll t => exact ⟨rfl, max_le_max le_rfl (le_max_left _ _), Or.inl rfl⟩
  | revoke user' t =>
    simp only [Call.step, m.revoke_invalidatedAt]
    refine ⟨rfl, m.inner.invalidatedAt_le_invalidate user' user t, ?_⟩
    by_cases hu : user = user'
    · subst hu
      rcases m.revoke_held user t with h | ⟨u, h1, h2, h3⟩
      · exact Or.inl h
      · exact Or.inr ⟨u, h1, h3, h2.trans (m.inner.le_invalidate user t)⟩
    · exact Or.inl (m.revoke_held_ne hu t)

end Step

/-! ## What is held is the newest applied evaluation -/

/-- What the map owes a user: the held entry is one of the applied evaluations, no applied
evaluation is newer, and after an applied empty evaluation only an evaluation at least as new can
grant anything. -/
structure HeldNewest (user : Uuid) (tr : List (Call × Reply)) (m : UserPermissionsMap ι) :
    Prop where
  origin : ∀ u, m.held user = some u → ∃ e ∈ appliedTo user tr, e.permissions = u.permissions ∧ e.asOf = u.asOf
  newest : ∀ u, m.held user = some u → ∀ e ∈ appliedTo user tr, e.asOf ≤ u.asOf
  stays_empty : ∀ e ∈ appliedTo user tr, e.permissions = ∅ → ∀ p, m.hasPermission user p = true →
    ∃ e' ∈ appliedTo user tr, e.asOf ≤ e'.asOf ∧ e'.permissions.hasPermission p = true ∧
      (m.held user).map (·.asOf) = some e'.asOf

/-- The late grant: the call carries a non-empty evaluation that passes the freshness tests, after
a newer empty evaluation of the same user was applied. -/
def LateGrant (tr : List (Call × Reply)) (m : UserPermissionsMap ι) (c : Call) : Prop :=
  c.LetThrough m ∧ ∃ e, c.evaluation = some e ∧ e.permissions ≠ ∅ ∧
    ∃ e0 ∈ appliedTo e.user tr, e0.permissions = ∅ ∧ e.asOf < e0.asOf

/-- The invariant of runs without late grants.  For a user without an entry, every applied
evaluation is covered by an invalidation or by an applied empty evaluation. -/
def StampInv (tr : List (Call × Reply)) (m : UserPermissionsMap ι) : Prop :=
  ∀ user,
    (∀ u, m.held user = some u → (∃ e ∈ appliedTo user tr, e.permissions = u.permissions ∧ e.asOf = u.asOf) ∧
      ∀ e ∈ appliedTo user tr, e.asOf ≤ u.asOf) ∧
    (m.held user = none → ∀ e ∈ appliedTo user tr, e.asOf ≤ m.inner.invalidatedAt user ∨
      ∃ e0 ∈ appliedTo user tr, e0.permissions = ∅ ∧ e.asOf ≤ e0.asOf)

variable {tr : List (Call × Reply)}

theorem StampInv.heldNewest {m : UserPermissionsMap ι} (h : StampInv tr m) (user : Uuid) : HeldNewest user tr m where
  origin u hu := ((h user).1 u hu).1
  newest u hu := ((h user).1 u hu).2
  stays_empty e he _ p hp := by
    obtain ⟨u, hu, hpu⟩ := hasPermission_eq_true.mp hp
    obtain ⟨⟨e', he', hps, hat⟩, hnew⟩ := (h user).1 u hu
    exact ⟨e', he', hat ▸ hnew e he, hps ▸ hpu, by rw [hu, hat]; rfl⟩

theorem stampInv_default : StampInv [] (default ι) := by
  intro user
  refine ⟨fun u hu => ?_, fun _ e he => ?_⟩
  · simp [held, UserPermissionsMap.default, Inner.default] at hu
  · simp [appliedTo] at he

theorem appliedTo_of_not_applied (user : Uuid) (tr : List (Call × Reply)) (c : Call) {r : Reply}
    (h : r.isApplied = false) : appliedTo user (tr ++ [(c, r)]) = appliedTo user tr := by
  simp [appliedTo_concat, h]

theorem appliedTo_of_applied {c : Call} {r : Reply} {e : Evaluation}
    (hc : c.evaluation = some e) (h : r.isApplied = true) (user : Uuid) : appliedTo user (tr ++ [(c, r)]) =
      if e.user = user then appliedTo user tr ++ [e] else appliedTo user tr := by
  rw [appliedTo_concat, h, hc]
  by_cases hu : e.user = user <;> simp [Option.filter, hu]

section Step

variable (tryFromLines : List String → Option ι) {m : UserPermissionsMap ι}
  {tr : List (Call × Reply)}

theorem stampInv_of_applies {m' : UserPermissionsMap ι} {c : Call} {r : Reply} {e : Evaluation}
    (h : StampInv tr m) (hc : c.evaluation = some e) (hr : r.isApplied = true) (ha : Applies m m' e)
    (hlate : e.permissions ≠ ∅ → ∀ e0 ∈ appliedTo e.user tr, e0.permissions = ∅ → e0.asOf ≤ e.asOf) :
    StampInv (tr ++ [(c, r)]) m' := by
  intro user
  rw [appliedTo_of_applied hc hr, ha.stamps]
  by_cases hu : e.user = user
  · subst hu
    rw [if_pos rfl]
    -- everything applied so far is at most `e.asOf`, unless only empty evaluations cover it
    have hle : ∀ e1 ∈ appliedTo e.user tr ++ [e], e1.asOf ≤ e.asOf ∨
        ∃ e0 ∈ appliedTo e.user tr, e0.permissions = ∅ ∧ e1.asOf ≤ e0.asOf := by
      intro e1 he1
      rcases List.mem_append.mp he1 with he1 | he1
      · cases hh : m.held e.user with
        | some u => exact Or.inl (((h e.user).1 u hh).2 e1 he1 |>.trans (ha.newest u hh))
        | none => exact ((h e.user).2 hh e1 he1).imp_left (·.trans ha.young.le)
      · exact Or.inl (List.mem_singleton.mp he1 ▸ le_rfl)
    by_cases hp : e.permissions = ∅
    · refine ⟨fun u hu => ?_, fun _ e1 he1 => Or.inr ?_⟩
      · rw [ha.empty hp] at hu; cases hu
      · rcases hle e1 he1 with h1 | ⟨e0, he0, h0, h1⟩
        · exact ⟨e, by simp, hp, h1⟩
        · exact ⟨e0, by simp [he0], h0, h1⟩
    · obtain ⟨u, hu, hps, hat⟩ := ha.grant hp
      refine ⟨fun u' hu' => ?_, fun hnone => ?_⟩
      · obtain rfl : u = u' := some.inj (hu.symm.trans hu')
        refine ⟨⟨e, by simp, hps.symm, hat.symm⟩, fun e1 he1 => ?_⟩
        rw [hat]
        rcases hle e1 he1 with h1 | ⟨e0, he0, h0, h1⟩
        · exact h1
        · exact h1.trans (hlate hp e0 he0 h0)
      · rw [hu] at hnone; cases hnone
  · rw [if_neg hu, ha.others user (Ne.symm hu)]
    exact h user

theorem stampInv_step (h : StampInv tr m) (c : Call) (hlate : ¬ LateGrant tr m c) :
    StampInv (tr ++ [(c, (c.step tryFromLines m).2)]) (c.step tryFromLines m).1 := by
  cases hc : c.evaluation with
  | some e =>
    rcases step_of_evaluation tryFromLines hc with ⟨hl, hr, ha⟩ | ⟨-, hr, hm⟩
    · refine stampInv_of_applies h hc hr ha fun hp e0 he0 h0 => not_lt.mp fun hlt => ?_
      exact hlate ⟨hl, e, hc, hp, e0, he0, h0, hlt⟩
    · intro user
      rw [hm, appliedTo_of_not_applied _ _ _ hr]
      exact h user
  | none =>
    intro user
    obtain ⟨hr, hinv, hheld⟩ := step_of_no_evaluation tryFromLines hc user
    rw [appliedTo_of_not_applied _ _ _ hr]
    rcases hheld with hsame | ⟨u, hu, hgone, hcov⟩
    · rw [hsame]
      refine ⟨(h user).1, fun hn e he => ?_⟩
      rcases (h user).2 hn e he with h1 | h1
      · exact Or.inl (h1.trans hinv)
      · exact Or.inr h1
    · -- the entry was revoked: its stamp is the bound for everything applied before
      refine ⟨fun u' hu' => ?_, fun _ e he => Or.inl ?_⟩
      · rw [hgone] at hu'; cases hu'
      · exact (((h user).1 u hu).2 e he).trans hcov

theorem not_heldNewest_of_lateGrant {c : Call} (hlate : LateGrant tr m c) :
    ∃ user, ¬ HeldNewest user (tr ++ [(c, (c.step tryFromLines m).2)]) (c.step tryFromLines m).1 := by
  obtain ⟨hl, e, hc, hp, e0, he0, -, hlt⟩ := hlate
  obtain ⟨-, hr, ha⟩ := (step_of_evaluation tryFromLines hc).resolve_right fun h => h.1 hl
  obtain ⟨u, hu, -, hat⟩ := ha.grant hp
  refine ⟨e.user, fun hn => ?_⟩
  have h1 := hn.newest u hu e0 (by rw [appliedTo_of_applied hc hr]; simp [he0])
  omega

end Step

/-- **Freshness of the held permissions.**  Over every sequence of calls from an empty map, in
every prefix and for every user the held permissions are the newest applied evaluation, exactly
when no call of the sequence is a late grant. -/
theorem heldNewest_iff_noLateGrant (tryFromLines : List String → Option ι) (calls : List Call) :
    (∀ pre, pre <+: calls → ∀ user, HeldNewest user (trace (Call.step tryFromLines) (default ι) pre)
        (exec (Call.step tryFromLines) (default ι) pre)) ↔
    Steps (Call.step tryFromLines) (fun tr m c => ¬ LateGrant tr m c) (default ι) calls := by
  refine forall_prefix_iff_steps (I := fun tr m => ∀ user, HeldNewest user tr m)
    (fun user => stampInv_default.heldNewest user) (fun as c hs _ => ?_) calls
  have hinv := inv_of_steps stampInv_default (fun tr m c h hg => stampInv_step tryFromLines h c hg) hs
  rw [exec_concat, trace_concat]
  constructor
  · intro h hlate
    obtain ⟨user, hnot⟩ := not_heldNewest_of_lateGrant tryFromLines hlate
    exact hnot (h user)
  · exact fun hg user => (stampInv_step tryFromLines hinv c hg).heldNewest user

/-- An empty evaluation at 10 is applied and forgotten: the evaluation at 5 grants again. -/
theorem late_grant_revives : let calls : List Call :=
      [.setFetchedPermissions 1 ∅ none 10, .setFetchedPermissions 1 {.controlConsole} none 5]
    let run := exec (Call.step fun _ => none) (default Unit) calls
    trace (Call.step fun _ => none) (default Unit) calls = calls.zip [.fetch .applied, .fetch .applied] ∧
    run.hasPermission 1 .controlConsole = true ∧
    ¬ ∀ user, HeldNewest user (trace (Call.step fun _ => none) (default Unit) calls) run := by
  refine ⟨rfl, by decide, fun h => ?_⟩
  exact absurd ((h 1).newest ⟨{.controlConsole}, .unrestricted, 5⟩ rfl ⟨1, 10, ∅⟩ (by decide))
    (by decide)

end Model

end Wings.Server
