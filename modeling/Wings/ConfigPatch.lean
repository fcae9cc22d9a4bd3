import Wings.Lib.Json

/-!
# Wings.ConfigPatch — panel patches of the configuration

`utils::strip_paths` and the route `routes/api/update.rs`.  The panel sends a merge patch; before it
is merged into the serialised configuration, every protected path is stripped from it.

* `stripPaths`: the loop of the source, one cursor walk for each dotted path.
* `Harmless parts patch`: along `parts` the patch has only objects, and nothing at the end.
  Stripping a path makes the patch harmless for it (`harmless_stripParts`), stripping another path
  does not undo that (`Harmless.stripParts`), and a harmless patch merges without touching the
  value at the path (`Harmless.valueAt_merge`).
* **`valueAt_merge_stripPaths`**
-/

namespace Wings

open Lib List Json

variable {ν : Type} {v : Json ν} {m : List (String × Json ν)}

/-! ## The model -/

def pathParts (path : String) : List String :=
  (path.toList.splitOn '.').map String.ofList

/-- The cursor walk of `strip_paths` for one path: the last part is removed, and so is a value on
the way that is no object, since a merge would put it in place of the whole subtree. -/
def stripParts : List String → Json ν → Json ν
  | part :: rest, .obj m =>
    if rest = [] then .obj (removeMember part m)
    else match getMember part m with
      | some next =>
        if next.isObject then .obj (setMember part (stripParts rest next) m)
        else .obj (removeMember part m)
      | none => .obj m
  | _, v => v

def stripPaths (value : Json ν) (paths : List String) : Json ν :=
  paths.foldl (fun v path => stripParts (pathParts path) v) value

/-! ## Stripping makes a patch harmless -/

/-- Along the path the patch has only objects, and it has nothing at the end of it. -/
def Harmless : List String → Json ν → Prop
  | [], _ => False
  | k :: ks, j => j.isObject = true ∧
    ∀ v, getMember k j.members = some v → ks ≠ [] ∧ Harmless ks v

variable {ks : List String} {k : String}

theorem harmless_cons :
    Harmless (k :: ks) (.obj m) ↔ ∀ v, getMember k m = some v → ks ≠ [] ∧ Harmless ks v := by
  simp [Harmless, isObject, members]

/-- What stripping a path leaves of the member it starts with. -/
def strippedMember (ks : List String) (v : Json ν) : Option (Json ν) :=
  if ks ≠ [] ∧ v.isObject = true then some (stripParts ks v) else none

theorem stripParts_obj (k : String) (ks : List String) (m : List (String × Json ν)) :
    ∃ m', stripParts (k :: ks) (.obj m) = .obj m' ∧ ∀ j, getMember j m' =
      if j = k then (getMember k m).bind (strippedMember ks) else getMember j m := by
  rw [stripParts]
  by_cases hks : ks = []
  · refine ⟨_, if_pos hks, fun j => ?_⟩
    rw [getMember_removeMember]
    cases getMember k m <;> simp [strippedMember, hks]
  · rw [if_neg hks]
    cases hk : getMember k m with
    | none =>
      refine ⟨m, rfl, fun j => ?_⟩
      by_cases hj : j = k <;> simp [hj, hk]
    | some v =>
      by_cases hv : v.isObject = true
      · refine ⟨_, if_pos hv, fun j => ?_⟩
        rw [getMember_setMember]
        simp [strippedMember, hks, hv]
      · refine ⟨_, if_neg hv, fun j => ?_⟩
        rw [getMember_removeMember]
        simp [strippedMember, hv]

theorem isObject_stripParts (ks : List String) (hv : v.isObject = true) : (stripParts ks v).isObject = true := by
  cases v with
  | obj m =>
    cases ks with
    | nil => exact hv
    | cons k ks =>
      obtain ⟨m', hm', -⟩ := stripParts_obj k ks m
      rw [hm']; rfl
  | _ => cases hv

theorem harmless_stripParts : ∀ {ks : List String} {v : Json ν}, ks ≠ [] → v.isObject = true →
    Harmless ks (stripParts ks v)
  | [], _, h, _ => absurd rfl h
  | k :: ks, .obj m, _, _ => by
    obtain ⟨m', hm', hget⟩ := stripParts_obj k ks m
    rw [hm', harmless_cons]
    intro w hw
    rw [hget k, if_pos rfl] at hw
    obtain ⟨v, -, hv⟩ := Option.bind_eq_some_iff.mp hw
    unfold strippedMember at hv
    split_ifs at hv with h
    cases hv
    exact ⟨h.1, harmless_stripParts h.1 h.2⟩

theorem Harmless.stripParts : ∀ {ks : List String} {v : Json ν}, Harmless ks v →
    ∀ js : List String, Harmless ks (stripParts js v)
  | [], _, h, _ => h.elim
  | k :: ks, .obj m, h, [] => h
  | k :: ks, .obj m, h, j :: js => by
    obtain ⟨m', hm', hget⟩ := stripParts_obj j js m
    rw [hm', harmless_cons]
    intro w hw
    rw [hget k] at hw
    by_cases hkj : k = j
    · subst hkj
      rw [if_pos rfl] at hw
      obtain ⟨v, hv, hw⟩ := Option.bind_eq_some_iff.mp hw
      obtain ⟨hne, hh⟩ := harmless_cons.mp h v hv
      unfold strippedMember at hw
      split_ifs at hw
      cases hw
      exact ⟨hne, hh.stripParts js⟩
    · rw [if_neg hkj] at hw
      exact harmless_cons.mp h w hw

theorem Harmless.stripPaths (h : Harmless ks v) (paths : List String) : Harmless ks (stripPaths v paths) := by
  induction paths generalizing v with
  | nil => exact h
  | cons path paths ih => exact ih (h.stripParts (pathParts path))

theorem pathParts_ne_nil (path : String) : pathParts path ≠ [] := by
  unfold pathParts
  simp [splitOn, splitOnP_ne_nil]

theorem harmless_stripPaths (hv : v.isObject = true) {paths : List String}
    {path : String} (hp : path ∈ paths) : Harmless (pathParts path) (stripPaths v paths) := by
  induction paths generalizing v with
  | nil => cases hp
  | cons p paths ih =>
    rcases mem_cons.mp hp with rfl | hp
    · exact (harmless_stripParts (pathParts_ne_nil _) hv).stripPaths paths
    · exact ih (isObject_stripParts _ hv) hp

/-! ## A harmless patch leaves the path alone -/

theorem Distinct.removeMember (h : (obj m).Distinct) (k : String) : (obj (removeMember k m)).Distinct := by
  rw [distinct_obj] at h ⊢
  have hsub : (Lib.removeMember k m).Sublist m := filter_sublist
  exact ⟨h.1.sublist (hsub.map _), fun kv hkv => h.2 kv (hsub.subset hkv)⟩

theorem keys_setMember : ∀ {m : List (String × Json ν)} {w : Json ν},
    getMember k m = some w → (setMember k v m).map Prod.fst = m.map Prod.fst
  | [], _, h => by cases h
  | (j, u) :: m, w, h => by
    rw [getMember_cons] at h
    by_cases hj : j = k
    · simp [setMember, hj]
    · rw [if_neg (Ne.symm hj)] at h
      simp [setMember, hj, keys_setMember h]

theorem mem_setMember : ∀ {m : List (String × Json ν)}
    {kv : String × Json ν}, kv ∈ setMember k v m → kv.2 = v ∨ kv ∈ m
  | [], kv, h => by
    left
    rw [mem_singleton.mp h]
  | (j, u) :: m, kv, h => by
    unfold setMember at h
    split_ifs at h
    · rcases mem_cons.mp h with rfl | h
      · exact Or.inl rfl
      · exact Or.inr (mem_cons_of_mem _ h)
    · rcases mem_cons.mp h with rfl | h
      · exact Or.inr mem_cons_self
      · exact (mem_setMember h).imp_right (mem_cons_of_mem _)

theorem distinct_stripParts : ∀ (ks : List String) {v : Json ν}, v.Distinct →
    (stripParts ks v).Distinct
  | [], v, h => by cases v <;> exact h
  | k :: ks, .obj m, h => by
    rw [stripParts]
    split_ifs with hks
    · exact Distinct.removeMember h k
    · cases hk : getMember k m with
      | none => exact h
      | some next =>
        dsimp only
        split_ifs with hn
        · rw [distinct_obj, keys_setMember hk]
          refine ⟨(distinct_obj.mp h).1, fun kv hkv => ?_⟩
          rcases mem_setMember hkv with heq | hmem
          · rw [heq]; exact distinct_stripParts ks (h.of_getMember hk)
          · exact (distinct_obj.mp h).2 kv hmem
        · exact Distinct.removeMember h k
  | _ :: _, .null, h | _ :: _, .bool _, h | _ :: _, .num _, h | _ :: _, .str _, h
  | _ :: _, .arr _, h => h

theorem distinct_stripPaths (h : v.Distinct) (paths : List String) : (stripPaths v paths).Distinct := by
  induction paths generalizing v with
  | nil => exact h
  | cons p paths ih => exact ih (distinct_stripParts _ h)

/-- The proper prefixes of the path are objects in the document. -/
def ParentsAreObjects (parts : List String) (doc : Json ν) : Prop :=
  ∀ pre, pre <+: parts → pre ≠ parts → ∃ m, doc.valueAt pre = some (.obj m)

theorem parentsAreObjects_singleton (k : String) (m : List (String × Json ν)) : ParentsAreObjects [k] (.obj m) := by
  intro pre hpre hne
  have hnil : pre = [] := by
    have hlt := hpre.length_le.lt_of_ne fun h => hne (hpre.eq_of_length h)
    simpa using hlt
  exact ⟨m, by rw [hnil]; rfl⟩

theorem parentsAreObjects_cons_cons {k k' : String} :
    ParentsAreObjects (k :: k' :: ks) (.obj m) ↔
      ∃ m', getMember k m = some (.obj m') ∧ ParentsAreObjects (k' :: ks) (.obj m') := by
  constructor
  · intro h
    obtain ⟨m', hm'⟩ := h [k] ⟨k' :: ks, rfl⟩ (by simp)
    simp only [valueAt, Option.bind_eq_some_iff] at hm'
    obtain ⟨w, hw, hw'⟩ := hm'
    cases hw'
    refine ⟨m', hw, fun pre hpre hne => ?_⟩
    obtain ⟨m'', hm''⟩ := h (k :: pre) (cons_prefix_cons.mpr ⟨rfl, hpre⟩) (by simpa using hne)
    exact ⟨m'', by simpa [valueAt, hw] using hm''⟩
  · rintro ⟨m', hm', h⟩ pre hpre hne
    cases pre with
    | nil => exact ⟨m, rfl⟩
    | cons j pre =>
      obtain ⟨rfl, htail⟩ := cons_prefix_cons.mp hpre
      obtain ⟨m'', hm''⟩ := h pre htail (by simpa using hne)
      exact ⟨m'', by simpa [valueAt, hm'] using hm''⟩

theorem Harmless.valueAt_merge : ∀ {ks : List String} {patch : Json ν}, Harmless ks patch →
    patch.Distinct → ∀ {doc : Json ν}, ParentsAreObjects ks doc →
    (doc.merge patch).valueAt ks = doc.valueAt ks
  | [], _, h, _, _, _ => h.elim
  | k :: ks, .obj p, h, hd, doc, hpar => by
    obtain ⟨m, hm⟩ := hpar [] nil_prefix (by simp)
    cases hm
    have hget := getMember_mergeMembers k p (distinct_obj.mp hd).1 m
    change (getMember k (mergeMembers m p)).bind _ = (getMember k m).bind _
    cases hk : getMember k p with
    | none => rw [hget, hk]
    | some v =>
      obtain ⟨hne, hv⟩ := harmless_cons.mp h v hk
      obtain ⟨k', ks', rfl⟩ := exists_cons_of_ne_nil hne
      obtain ⟨m', hm', hpar'⟩ := parentsAreObjects_cons_cons.mp hpar
      rw [hget, hk, hm']
      -- the patch member is an object, so it is merged into the object that is there
      cases v with
      | obj p' => exact hv.valueAt_merge (hd.of_getMember hk) hpar'
      | _ => exact absurd hv.1 (by simp [isObject])

/-- **Protected settings.**  For every document, every object patch and every list of dotted paths
whose parents are objects in the document, merging the stripped patch leaves the value at each path
as it was, present or absent. -/
theorem valueAt_merge_stripPaths (doc : Json ν) (patch : Value ν) (hpatch : patch.json.isObject = true)
    (paths : List String) (hpar : ∀ path ∈ paths, ParentsAreObjects (pathParts path) doc) :
    ∀ path ∈ paths, (doc.merge (stripPaths patch.json paths)).valueAt (pathParts path) =
      doc.valueAt (pathParts path) := by
  intro path hp
  exact (harmless_stripPaths hpatch hp).valueAt_merge (distinct_stripPaths patch.distinct paths) (hpar path hp)

/-- A patch that nulls the parent of one protected setting and overwrites another one. -/
theorem valueAt_merge_stripPaths_nulled :
    let doc : Json ℕ := .obj [("token", .str "secret"), ("system", .obj [("user", .obj [("uid", .num 988)])])]
    let patch : Json ℕ := .obj [("system", .null), ("token", .str "other"), ("debug", .bool true)]
    let merged := doc.merge (stripPaths patch ["system.user.uid", "token"])
    merged.valueAt ["system", "user", "uid"] = some (.num 988) ∧
      merged.valueAt ["token"] = some (.str "secret") := by
  intro doc patch merged
  have hd : patch.Distinct := by
    simp [patch, distinct_obj]
    simp [Distinct]
  have hpar : ∀ path ∈ ["system.user.uid", "token"], ParentsAreObjects (pathParts path) doc := by
    intro path hp
    rcases mem_cons.mp hp with rfl | hp
    · refine parentsAreObjects_cons_cons.mpr ⟨_, rfl, ?_⟩
      exact parentsAreObjects_cons_cons.mpr ⟨_, rfl, parentsAreObjects_singleton _ _⟩
    · obtain rfl := mem_singleton.mp hp
      exact parentsAreObjects_singleton _ _
  have h := valueAt_merge_stripPaths doc ⟨patch, hd⟩ rfl ["system.user.uid", "token"] hpar
  exact ⟨h "system.user.uid" (by simp), h "token" (by simp)⟩

/-! ## The route -/

/-- What the route needs of the configuration type: its serialisation both ways, the opt-out flag
and the replacement of the running configuration, which may fail with a message. -/
structure ConfigApi (κ ν : Type) where
  toValue : κ → Except String (Json ν)
  fromValue : Json ν → Except String κ
  ignorePanelConfigUpdates : κ → Bool
  replace : κ → Except String Unit

inductive UpdateResponse
  | ok (applied : Bool)
  | error (status : ℕ) (message : String)
  deriving DecidableEq

/-- `routes/api/update.rs`, `post::route`: the answer and the configuration in force afterwards. -/
def updateRoute {κ : Type} (api : ConfigApi κ ν) (forbidden : List String) (config : κ)
    (patch : Json ν) : UpdateResponse × κ :=
  if api.ignorePanelConfigUpdates config then (.ok false, config)
  else if !patch.isObject then (.error 400 "config patch must be a JSON object", config)
  else match api.toValue config with
    | .error _ => (.error 500 "failed to read current config", config)
    | .ok doc =>
      match api.fromValue (doc.merge (stripPaths patch forbidden)) with
      | .error err => (.error 400 ("invalid config patch: " ++ err), config)
      | .ok newConfig =>
        match api.replace newConfig with
        | .error err => (.error 500 ("failed to apply config patch: " ++ err), config)
        | .ok _ => (.ok true, newConfig)

/-- The route keeps the running configuration, or puts one in force that was read from a document
with the same values at every forbidden path. -/
theorem updateRoute_keeps_forbidden {κ : Type} (api : ConfigApi κ ν) (forbidden : List String) (config : κ)
    (patch : Value ν)
    (hpar : ∀ doc, api.toValue config = .ok doc → ∀ path ∈ forbidden, ParentsAreObjects (pathParts path) doc) :
    (updateRoute api forbidden config patch.json).2 = config ∨
      ∃ doc doc', api.toValue config = .ok doc ∧
        api.fromValue doc' = .ok (updateRoute api forbidden config patch.json).2 ∧
        ∀ path ∈ forbidden, doc'.valueAt (pathParts path) = doc.valueAt (pathParts path) := by
  unfold updateRoute
  split_ifs with hig hobj
  · exact Or.inl rfl
  · exact Or.inl rfl
  · cases hdoc : api.toValue config with
    | error e => exact Or.inl rfl
    | ok doc =>
      cases hnew : api.fromValue (doc.merge (stripPaths patch.json forbidden)) with
      | error e => exact Or.inl (by simp only [hnew])
      | ok newConfig =>
        cases hrep : api.replace newConfig with
        | error e => exact Or.inl (by simp only [hnew, hrep])
        | ok u =>
          refine Or.inr ⟨doc, doc.merge (stripPaths patch.json forbidden), rfl,
            by simp only [hnew, hrep], fun path hp => ?_⟩
          have hobj' : patch.json.isObject = true := by simpa using hobj
          exact (harmless_stripPaths hobj' hp).valueAt_merge
            (distinct_stripPaths patch.distinct forbidden) (hpar doc hdoc path hp)

end Wings
