import Wings.Lib.Text
import Wings.Lib.Retain
import Wings.Server.Permissions

/-!
# Wings.Remote.Jwt — tokens that have been denied or revoked

`remote/jwt.rs`: a token is denied by its id and revoked by its user or API key.  A background task drops what is
an hour old; a revocation that is dropped raises `revoked_all`, and nothing takes the place of a denial.

* **`rejected_ever_after`**
-/

namespace Wings.Remote

open Lib Server List AList Option

abbrev Time := ℤ

def timestamp (t : Time) : ℤ := t / 1000000000

def timestampMillis (t : Time) : ℤ := t / 1000000

def hour : ℤ := 3600 * 1000000000

inductive JwtValidateError where
  | expired
  | notYetValid
  | invalidIssuedAt
  | denied
  deriving DecidableEq, Repr

abbrev I64 := { x : ℤ // i64Min ≤ x ∧ x ≤ i64Max }

/-- The claims of a token that are checked. -/
structure BasePayload where
  scope : Text
  subject : Option Text
  expirationTime : Option I64
  notBefore : Option I64
  issuedAt : Option I64
  jwtId : Text
  credential : Option Uuid
  deriving DecidableEq

structure Revocations where
  subjects : AList fun _ : Uuid => ℤ
  credentials : AList fun _ : Uuid => ℤ
  revokedAll : ℤ

namespace Revocations

def default : Revocations := ⟨∅, ∅, i64Min⟩

def get (revoked : AList fun _ : Uuid => ℤ) (id : Option Uuid) : ℤ := (id.bind revoked.lookup).getD i64Min

def revokedAt (r : Revocations) (subject credential : Option Uuid) : ℤ :=
  max (max (get r.subjects subject) (get r.credentials credential)) r.revokedAll

/-- The entries that are dropped raise `revoked_all`. -/
def raised (revoked : AList fun _ : Uuid => ℤ) (cutoff acc : ℤ) : ℤ :=
  ((revoked.entries.filter fun e => e.2 ≤ cutoff).map (·.2)).foldl max acc

def prune (r : Revocations) (cutoff : ℤ) : Revocations where
  subjects := retain r.subjects fun _ t => decide (cutoff < t)
  credentials := retain r.credentials fun _ t => decide (cutoff < t)
  revokedAll := raised r.credentials cutoff (raised r.subjects cutoff r.revokedAll)

def enter (revoked : AList fun _ : Uuid => ℤ) (asOf : ℤ) (id : Uuid) : AList fun _ : Uuid => ℤ :=
  revoked.insert id (max ((revoked.lookup id).getD asOf) asOf)

def revoke (r : Revocations) (subjects credentials : List Uuid) (asOf : ℤ) : Revocations :=
  { r with
    subjects := subjects.foldl (enter · asOf) r.subjects
    credentials := credentials.foldl (enter · asOf) r.credentials }

end Revocations

structure JwtClient where
  bootTime : Time
  deniedJtokens : AList fun _ : Text => Time
  revocations : Revocations

def splitComma (part : Text) : Text → List Text
  | [] => [part]
  | c :: rest => if c = ',' then part :: splitComma [] rest else splitComma (part ++ [c]) rest

section Validate

variable (parseUuid : Text → Option Uuid)

def BasePayload.revokedIn (p : BasePayload) (r : Revocations) : ℤ := r.revokedAt (p.subject.bind parseUuid) p.credential

def BasePayload.validate (p : BasePayload) (client : JwtClient) (now : Time) (scope : Option Text) :
    Except JwtValidateError Unit :=
  match p.expirationTime, p.issuedAt with
  | none, _ => .error .expired
  | some exp, iat =>
    if exp.1 < timestamp now then .error .expired
    else if (match p.notBefore with
        | some nbf => decide (nbf.1 > timestamp now)
        | none => false) then .error .notYetValid
    else
      match iat with
      | none => .error .invalidIssuedAt
      | some iat =>
        if wrapI64 (iat.1 - 5) > timestamp now ∨ iat.1 < timestamp client.bootTime then .error .invalidIssuedAt
        else if (match client.deniedJtokens.lookup p.jwtId with
            | some t => decide (iat.1 ≤ timestamp t)
            | none => false) then .error .denied
        else if saturatingMul iat.1 1000 ≤ p.revokedIn parseUuid client.revocations then .error .denied
        else if (match scope with
            | some scope => (splitComma [] p.scope).all fun s => decide (trim s ≠ scope)
            | none => false) then .error .denied
        else .ok ()

/-! ## Runs -/

inductive Op where
  | deny (id : Text)
  | revoke (subjects credentials : List Uuid) (asOf : I64)
  | validate (payload : BasePayload) (scope : Option Text)
  | cleanup
  deriving DecidableEq

structure Event where
  now : Time
  op : Op

namespace JwtClient

def new (bootTime : Time) : JwtClient := ⟨bootTime, ∅, .default⟩

def deny (client : JwtClient) (now : Time) (id : Text) : JwtClient :=
  { client with deniedJtokens := client.deniedJtokens.insert id now }

def revoke (client : JwtClient) (subjects credentials : List Uuid) (asOf : ℤ) : JwtClient :=
  if subjects = [] ∧ credentials = [] then client
  else { client with revocations := client.revocations.revoke subjects credentials asOf }

def cleanup (client : JwtClient) (now : Time) : JwtClient :=
  { client with
    deniedJtokens := retain client.deniedJtokens fun _ t => decide (now - hour < t)
    revocations := client.revocations.prune (timestampMillis (now - hour)) }

def step (client : JwtClient) (e : Event) : JwtClient × Option (Except JwtValidateError Unit) :=
  match e.op with
  | .deny id => (client.deny e.now id, none)
  | .revoke subjects credentials asOf => (client.revoke subjects credentials asOf.1, none)
  | .validate payload scope => (client, some (payload.validate parseUuid client e.now scope))
  | .cleanup => (client.cleanup e.now, none)

end JwtClient

/-! ## What is accepted -/

variable {parseUuid} {client : JwtClient}

open JwtClient

/-- A token that is accepted has not expired, and its denial and revocations are older than it. -/
theorem of_validate_eq_ok {p : BasePayload} {now : Time} {scope : Option Text}
    (h : p.validate parseUuid client now scope = .ok ()) :
    ∃ exp iat, p.expirationTime = some exp ∧ p.issuedAt = some iat ∧ timestamp now ≤ exp.1 ∧
      (∀ t, client.deniedJtokens.lookup p.jwtId = some t → timestamp t < iat.1) ∧
      p.revokedIn parseUuid client.revocations < saturatingMul iat.1 1000 := by
  unfold BasePayload.validate at h
  cases hexp : p.expirationTime with
  | none => rw [hexp] at h; exact absurd h nofun
  | some exp =>
    cases hiat : p.issuedAt with
    | none =>
      rw [hexp, hiat] at h
      dsimp only at h
      split_ifs at h
    | some iat =>
      rw [hexp, hiat] at h
      dsimp only at h
      split_ifs at h with hexpired _ _ hdenied hrevoked
      refine ⟨exp, iat, rfl, rfl, not_lt.mp hexpired, fun t ht => ?_, not_le.mp hrevoked⟩
      rw [ht] at hdenied
      exact not_le.mp fun hle => hdenied (decide_eq_true hle)

/-! ## Revocations stay -/

namespace Revocations

variable (revoked : AList fun _ : Uuid => ℤ)

theorem le_get_enter {asOf : ℤ} (hasOf : i64Min ≤ asOf) (id : Uuid) (id' : Option Uuid) :
    get revoked id' ≤ get (enter revoked asOf id) id' ∧ asOf ≤ get (enter revoked asOf id) (some id) := by
  have hself : get (enter revoked asOf id) (some id) = max ((revoked.lookup id).getD asOf) asOf := by
    rw [get, bind_some, enter, lookup_insert, getD_some]
  refine ⟨?_, hself ▸ le_max_right _ _⟩
  cases id' with
  | none => exact le_rfl
  | some id' =>
    by_cases hid : id' = id
    · subst hid
      rw [hself, get, bind_some]
      cases revoked.lookup id' with
      | none => exact hasOf.trans (le_max_right _ _)
      | some t => exact le_max_left _ _
    · rw [get, get, bind_some, bind_some, enter, lookup_insert_ne hid]

theorem le_get_enterAll {asOf : ℤ} (hasOf : i64Min ≤ asOf) (ids : List Uuid) :
    (∀ id', get revoked id' ≤ get (ids.foldl (enter · asOf) revoked) id') ∧
      ∀ id ∈ ids, asOf ≤ get (ids.foldl (enter · asOf) revoked) (some id) := by
  induction ids generalizing revoked with
  | nil => exact ⟨fun _ => le_rfl, nofun⟩
  | cons id ids ih =>
    obtain ⟨hmono, hids⟩ := ih (enter revoked asOf id)
    have henter := fun id' => le_get_enter revoked hasOf id id'
    refine ⟨fun id' => (henter id').1.trans (hmono id'), forall_mem_cons.mpr ⟨?_, hids⟩⟩
    exact (henter none).2.trans (hmono (some id))

theorem get_le_max_retain (cutoff acc : ℤ) (id : Option Uuid) :
    get revoked id ≤ max (get (retain revoked fun _ t => decide (cutoff < t)) id) (raised revoked cutoff acc) := by
  obtain ⟨-, hmem⟩ := le_foldl_max acc ((revoked.entries.filter fun e => e.2 ≤ cutoff).map (·.2))
  cases id with
  | none => exact le_max_left _ _
  | some id =>
    rw [get, get, bind_some, bind_some, lookup_retain]
    cases hlookup : revoked.lookup id with
    | none => exact le_max_left _ _
    | some t =>
      by_cases hkeep : cutoff < t
      · exact le_max_of_le_left (by simp [Option.filter, hkeep])
      · refine le_max_of_le_right (hmem t ?_)
        refine mem_map.mpr ⟨⟨id, t⟩, mem_filter.mpr ⟨mem_lookup_iff.mp hlookup, ?_⟩, rfl⟩
        exact decide_eq_true (not_lt.mp hkeep)

theorem le_revokedAt_prune (r : Revocations) (cutoff : ℤ) (subject credential : Option Uuid) :
    r.revokedAt subject credential ≤ (r.prune cutoff).revokedAt subject credential := by
  have hfirst := (le_foldl_max r.revokedAll ((r.subjects.entries.filter fun e => e.2 ≤ cutoff).map (·.2))).1
  have hsecond := (le_foldl_max (raised r.subjects cutoff r.revokedAll)
    ((r.credentials.entries.filter fun e => e.2 ≤ cutoff).map (·.2))).1
  have hsubjects := get_le_max_retain r.subjects cutoff r.revokedAll subject
  have hcredentials := get_le_max_retain r.credentials cutoff (raised r.subjects cutoff r.revokedAll) credential
  refine max_le (max_le (hsubjects.trans (max_le ?_ ?_)) (hcredentials.trans (max_le ?_ ?_))) ?_
  · exact le_max_of_le_left (le_max_left _ _)
  · exact le_max_of_le_right hsecond
  · exact le_max_of_le_left (le_max_right _ _)
  · exact le_max_right _ _
  · exact le_max_of_le_right (hfirst.trans hsecond)

theorem le_revokedAt_revoke (r : Revocations) (subjects credentials : List Uuid) (asOf : I64)
    (subject credential : Option Uuid) :
    r.revokedAt subject credential ≤ (r.revoke subjects credentials asOf.1).revokedAt subject credential ∧
      ((∃ id ∈ subjects, subject = some id) ∨ (∃ id ∈ credentials, credential = some id) →
        asOf.1 ≤ (r.revoke subjects credentials asOf.1).revokedAt subject credential) := by
  obtain ⟨hsubjects, hsubject⟩ := le_get_enterAll r.subjects asOf.2.1 subjects
  obtain ⟨hcredentials, hcredential⟩ := le_get_enterAll r.credentials asOf.2.1 credentials
  refine ⟨max_le_max (max_le_max (hsubjects subject) (hcredentials credential)) le_rfl, ?_⟩
  rintro (⟨id, hid, rfl⟩ | ⟨id, hid, rfl⟩)
  · exact le_max_of_le_left (le_max_of_le_left (hsubject id hid))
  · exact le_max_of_le_left (le_max_of_le_right (hcredential id hid))

end Revocations

/-- **No step lowers the time up to which a token is revoked.** -/
theorem revokedAt_step (client : JwtClient) (e : Event) (subject credential : Option Uuid) :
    client.revocations.revokedAt subject credential ≤
      (client.step parseUuid e).1.revocations.revokedAt subject credential := by
  obtain ⟨now, op⟩ := e
  cases op with
  | deny id => exact le_rfl
  | revoke subjects credentials asOf =>
    show _ ≤ (client.revoke subjects credentials asOf.1).revocations.revokedAt subject credential
    unfold revoke
    split_ifs
    · exact le_rfl
    · exact (Revocations.le_revokedAt_revoke client.revocations subjects credentials asOf subject credential).1
  | validate payload scope => exact le_rfl
  | cleanup => exact Revocations.le_revokedAt_prune client.revocations _ subject credential

/-! ## Runs -/

def lastDenial (id : Text) (events : List Event) : Option Time :=
  events.foldl (fun last e =>
    match e.op with
    | .deny id' => if id' = id then some e.now else last
    | _ => last) none

/-- The token has been denied since it was issued. -/
def Denied (events : List Event) (id : Text) (iat : ℤ) : Prop :=
  ∃ e ∈ events, e.op = .deny id ∧ iat ≤ timestamp e.now

variable (parseUuid) in
/-- The token has been revoked, by its user or its API key. -/
def Revoked (events : List Event) (p : BasePayload) (iat : ℤ) : Prop :=
  ∃ e ∈ events, ∃ subjects credentials asOf, e.op = .revoke subjects credentials asOf ∧
    ((∃ id ∈ subjects, p.subject.bind parseUuid = some id) ∨ (∃ id ∈ credentials, p.credential = some id)) ∧
    iat * 1000 ≤ asOf.1

/-- A token that has been denied is validated only if no round of the background task ran an hour or more after the
last denial and before the token had expired. -/
def Fresh (tr : List (Event × Option (Except JwtValidateError Unit))) (_client : JwtClient) (e : Event) : Prop :=
  ∀ payload scope exp iat t, e.op = .validate payload scope → payload.expirationTime = some exp →
    payload.issuedAt = some iat → lastDenial payload.jwtId (tr.map Prod.fst) = some t → iat.1 ≤ timestamp t →
      ∀ c ∈ tr, c.1.op = .cleanup → t + hour ≤ c.1.now → exp.1 < timestamp c.1.now

theorem lastDenial_concat (id : Text) (events : List Event) (e : Event) :
    lastDenial id (events ++ [e]) = if e.op = .deny id then some e.now else lastDenial id events := by
  rw [lastDenial, foldl_append]
  show (match e.op with
    | .deny id' => if id' = id then some e.now else lastDenial id events
    | _ => lastDenial id events) = _
  cases hop : e.op with
  | deny id' => simp only [Op.deny.injEq]
  | revoke subjects credentials asOf => exact (if_neg nofun).symm
  | validate payload scope => exact (if_neg nofun).symm
  | cleanup => exact (if_neg nofun).symm

theorem le_lastDenial {id : Text} {events : List Event} (hmono : events.Pairwise (·.now ≤ ·.now)) {e : Event}
    (he : e ∈ events) (hop : e.op = .deny id) : ∃ t, lastDenial id events = some t ∧ e.now ≤ t := by
  induction events using reverseRecOn with
  | nil => exact absurd he not_mem_nil
  | append_singleton events last ih =>
    rw [pairwise_append] at hmono
    rw [lastDenial_concat]
    by_cases hlast : last.op = .deny id
    · refine ⟨last.now, if_pos hlast, ?_⟩
      rcases mem_append.mp he with he | he
      · exact hmono.2.2 e he last mem_cons_self
      · rw [mem_singleton.mp he]
    · rw [if_neg hlast]
      refine ih hmono.1 ((mem_append.mp he).resolve_right fun he => hlast ?_)
      rw [← mem_singleton.mp he, hop]

/-- What the tables say of the events so far. -/
structure Inv (parseUuid : Text → Option Uuid) (tr : List (Event × Option (Except JwtValidateError Unit)))
    (client : JwtClient) : Prop where
  revoked : ∀ p iat, Revoked parseUuid (tr.map Prod.fst) p iat →
    max i64Min (iat * 1000) ≤ p.revokedIn parseUuid client.revocations
  denied : ∀ id t, lastDenial id (tr.map Prod.fst) = some t →
    client.deniedJtokens.lookup id = some t ∨ ∃ c ∈ tr, c.1.op = .cleanup ∧ t + hour ≤ c.1.now

theorem inv_step {tr : List (Event × Option (Except JwtValidateError Unit))} (h : Inv parseUuid tr client) (e : Event) :
    Inv parseUuid (tr ++ [(e, (client.step parseUuid e).2)]) (client.step parseUuid e).1 := by
  have hmap : (tr ++ [(e, (client.step parseUuid e).2)]).map Prod.fst = tr.map Prod.fst ++ [e] := map_append
  constructor
  · rintro p iat ⟨d, hd, subjects, credentials, asOf, hop, hid, hle⟩
    rw [hmap] at hd
    rcases mem_append.mp hd with hd | hd
    · exact (h.revoked p iat ⟨d, hd, subjects, credentials, asOf, hop, hid, hle⟩).trans (revokedAt_step client e _ _)
    · rw [mem_singleton] at hd
      subst hd
      obtain ⟨now, op⟩ := d
      subst hop
      have hrevoke := (Revocations.le_revokedAt_revoke client.revocations subjects credentials asOf
        (p.subject.bind parseUuid) p.credential).2 hid
      refine (max_le asOf.2.1 hle).trans ?_
      show _ ≤ p.revokedIn parseUuid (client.revoke subjects credentials asOf.1).revocations
      rw [revoke, if_neg]
      · exact hrevoke
      · rintro ⟨rfl, rfl⟩
        exact hid.elim (fun ⟨id, hid, _⟩ => absurd hid not_mem_nil) fun ⟨id, hid, _⟩ => absurd hid not_mem_nil
  · intro id t hlast
    rw [hmap, lastDenial_concat] at hlast
    have hmore : ∀ {client' : JwtClient}, client'.deniedJtokens.lookup id = client.deniedJtokens.lookup id →
        lastDenial id (tr.map Prod.fst) = some t → client'.deniedJtokens.lookup id = some t ∨
          ∃ c ∈ tr ++ [(e, (client.step parseUuid e).2)], c.1.op = .cleanup ∧ t + hour ≤ c.1.now := by
      intro client' hsame hlast
      rcases h.denied id t hlast with hlookup | ⟨c, hc, hcleanup⟩
      · exact .inl (hsame.trans hlookup)
      · exact .inr ⟨c, mem_append_left _ hc, hcleanup⟩
    obtain ⟨now, op⟩ := e
    cases op with
    | deny id' =>
      by_cases hid : id' = id
      · subst hid
        rw [if_pos rfl] at hlast
        obtain rfl := some.inj hlast
        exact .inl (lookup_insert _)
      · rw [if_neg fun heq => hid (Op.deny.inj heq)] at hlast
        exact hmore (lookup_insert_ne (Ne.symm hid)) hlast
    | revoke subjects credentials asOf =>
      refine hmore ?_ hlast
      show (client.revoke subjects credentials asOf.1).deniedJtokens.lookup id = _
      unfold revoke
      split_ifs <;> rfl
    | validate payload scope =>
      exact hmore rfl hlast
    | cleanup =>
      by_cases hold : t + hour ≤ now
      · exact .inr ⟨_, mem_append_right _ mem_cons_self, rfl, hold⟩
      · rcases h.denied id t hlast with hlookup | ⟨c, hc, hcleanup⟩
        · left
          show (retain client.deniedJtokens _).lookup id = _
          rw [lookup_retain, hlookup]
          have hkeep : now - hour < t := Int.sub_right_lt_of_lt_add (not_le.mp hold)
          simp [Option.filter, hkeep]
        · exact .inr ⟨c, mem_append_left _ hc, hcleanup⟩

theorem inv_run (bootTime : Time) (events : List Event) :
    Inv parseUuid (trace (step parseUuid) (.new bootTime) events)
      (exec (step parseUuid) (.new bootTime) events) := by
  refine inv_of_steps (G := fun _ _ _ => True) ⟨?_, ?_⟩ (fun _ _ e h _ => inv_step h e)
    fun _ _ _ => trivial
  · rintro p iat ⟨e, he, -⟩
    exact absurd he not_mem_nil
  · exact fun id t h => absurd h nofun

/-- **Denied and revoked tokens stay rejected**, in every run in which no denial is dropped before the tokens that
it covers have expired. -/
theorem rejected_ever_after (bootTime : Time) {events : List Event} (hmono : events.Pairwise (·.now ≤ ·.now))
    (hfresh : Steps (step parseUuid) Fresh (.new bootTime) events) {before after : List Event} {e : Event}
    (hevents : events = before ++ e :: after) {payload : BasePayload} {scope : Option Text} {iat : I64}
    (hop : e.op = .validate payload scope) (hiat : payload.issuedAt = some iat)
    (hcovered : Denied before payload.jwtId iat.1 ∨ Revoked parseUuid before payload iat.1) :
    ∃ err, payload.validate parseUuid (exec (step parseUuid) (.new bootTime) before) e.now scope = .error err := by
  have hinv : Inv parseUuid (trace (step parseUuid) (.new bootTime) before)
      (exec (step parseUuid) (.new bootTime) before) := inv_run bootTime before
  cases hresult : payload.validate parseUuid (exec (step parseUuid) (.new bootTime) before) e.now scope with
  | error err => exact ⟨err, rfl⟩
  | ok =>
    obtain ⟨exp, iat', hexp, hiat', hnow, hdenied, hrevoked⟩ := of_validate_eq_ok hresult
    obtain rfl : iat = iat' := some.inj (hiat.symm.trans hiat')
    rcases hcovered with ⟨d, hd, hdeny, hle⟩ | hcovered
    · -- the last denial is in the table, or it has been dropped after the token expired
      subst hevents
      rw [pairwise_append] at hmono
      obtain ⟨t, hlast, hdt⟩ := le_lastDenial hmono.1 hd hdeny
      have hiat : iat.1 ≤ timestamp t := hle.trans (Int.ediv_le_ediv (by decide) hdt)
      have hlast' : lastDenial payload.jwtId ((trace (step parseUuid) (.new bootTime) before).map Prod.fst) =
          some t := by rwa [map_fst_trace]
      rcases hinv.denied _ t hlast' with hlookup | ⟨c, hc, hcleanup, hdropped⟩
      · exact absurd (hdenied t hlookup) (not_lt.mpr hiat)
      · have hexpired := hfresh before e
          (by simp) payload scope exp iat t hop hexp hiat' hlast' hiat c hc hcleanup hdropped
        have hcmem : c.1 ∈ before := by
          have := mem_map_of_mem (f := Prod.fst) hc
          rwa [map_fst_trace] at this
        have hcnow : timestamp c.1.now ≤ timestamp e.now :=
          Int.ediv_le_ediv (by decide) (hmono.2.2 c.1 hcmem e mem_cons_self)
        omega
    · have hle := hinv.revoked payload iat.1 (by rwa [map_fst_trace])
      have hclamp : saturatingMul iat.1 1000 ≤ max i64Min (iat.1 * 1000) := max_le_max le_rfl (min_le_right _ _)
      exact absurd (hclamp.trans hle) (not_le.mpr hrevoked)

def tokenOf (id : Text) (exp iat : I64) : BasePayload :=
  { scope := [], subject := none, expirationTime := some exp, notBefore := none, issuedAt := some iat, jwtId := id
    credential := none }

/-- After it has been denied, and a round of the background task that keeps the denial. -/
theorem rejected_after_round :
    let token := tokenOf ['a'] ⟨9000, by decide⟩ ⟨0, by decide⟩
    let before : List Event := [⟨0, .deny ['a']⟩, ⟨500000000, .cleanup⟩]
    ∃ err, token.validate (fun _ => none) (exec (step fun _ => none) (.new 0) before) 1000000000 none = .error err := by
  intro token before
  let e : Event := ⟨1000000000, .validate token none⟩
  have hmono : (before ++ [e]).Pairwise (·.now ≤ ·.now) := by decide
  have hfresh : Steps (step fun _ => none) Fresh (.new 0) (before ++ [e]) := by
    refine steps_concat.mpr ⟨steps_cons.mpr ⟨?_, steps_cons.mpr ⟨?_, steps_nil⟩⟩,
      fun _ _ _ _ t hop _ _ ht _ c hc _ hlate => ?_⟩
    · exact fun _ _ _ _ _ hop => absurd hop nofun
    · exact fun _ _ _ _ _ hop => absurd hop nofun
    · cases hop
      cases ht
      have hearly : ∀ c ∈ trace (step fun _ => none) (.new 0) before, c.1.now < hour := by decide
      exact absurd hlate (not_le.mpr (by simpa using hearly c hc))
  have hiat : token.issuedAt = some ⟨0, by decide⟩ := rfl
  have hdenied : Denied before ['a'] 0 := ⟨_, mem_cons_self, rfl, by decide⟩
  exact rejected_ever_after 0 hmono hfresh rfl rfl hiat (.inl hdenied)

/-- **A denied token is accepted an hour later**, once the background task has dropped the denial. -/
theorem denied_token_accepted :
    let token := tokenOf ['a'] ⟨9000, by decide⟩ ⟨0, by decide⟩
    let before : List Event := [⟨0, .deny ['a']⟩, ⟨hour, .cleanup⟩]
    Denied before ['a'] 0 ∧
      token.validate (fun _ => none) (exec (step fun _ => none) (.new 0) before) hour none = .ok () :=
  ⟨⟨_, mem_cons_self, rfl, by decide⟩, by decide⟩

end Validate

end Wings.Remote
