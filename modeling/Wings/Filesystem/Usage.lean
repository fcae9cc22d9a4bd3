import Wings.Filesystem.DiskUsage
import Wings.Lib.Run
import Wings.Path

/-!
# Wings.Filesystem.Usage — the usage tree as a record of path usages

`server/filesystem/usage.rs`: the operations of `DiskUsage` that take a `Path`, and runs of all of
them.  A component becomes a key of the tree by `component_key`: a UTF-8 name is its own key, any
other name is escaped byte by byte.

* **`usage_faithful`**
-/

namespace Wings.Filesystem

open Lib List DiskUsage PathLedger

/-! ## Keys -/

def hexDigit (nibble : Fin 16) : Byte :=
  if nibble.val < 10 then ⟨0x30 + nibble.val, by omega⟩ else ⟨0x37 + nibble.val, by omega⟩

/-- One byte of a name that is not UTF-8: ASCII except `%` stays, any other byte becomes `%XX`. -/
def escapeByte (byte : Byte) : Name :=
  if byte.val < 0x80 ∧ byte.val ≠ 0x25 then [byte]
  else [0x25, hexDigit ⟨byte.val / 16, by omega⟩, hexDigit ⟨byte.val % 16, by omega⟩]

def escapeName (name : Name) : Name := name.flatMap escapeByte

def componentKey (name : Name) : Name := if validUtf8 name then name else escapeName name

theorem hexDigit_injective : Function.Injective hexDigit := by
  decide

theorem escapeByte_ne_nil (byte : Byte) : escapeByte byte ≠ [] := by
  unfold escapeByte
  split_ifs <;> simp

theorem escapeByte_append_inj {a b : Byte} {s t : Name}
    (h : escapeByte a ++ s = escapeByte b ++ t) : a = b ∧ s = t := by
  unfold escapeByte at h
  split_ifs at h with ha hb hb
  · simpa using h
  · simp only [cons_append, nil_append, cons.injEq] at h
    exact absurd (congrArg Fin.val h.1) ha.2
  · simp only [cons_append, nil_append, cons.injEq] at h
    exact absurd (congrArg Fin.val h.1).symm hb.2
  · simp only [cons_append, nil_append, cons.injEq, true_and] at h
    obtain ⟨hhigh, hlow, hst⟩ := h
    have hhigh := congrArg Fin.val (hexDigit_injective hhigh)
    have hlow := congrArg Fin.val (hexDigit_injective hlow)
    refine ⟨Fin.ext ?_, hst⟩
    simp only at hhigh hlow
    omega

theorem escapeName_injective : Function.Injective escapeName := by
  intro a b h
  induction a generalizing b with
  | nil =>
    cases b with
    | nil => rfl
    | cons y ys =>
      exact absurd (append_eq_nil_iff.mp h.symm).1 (escapeByte_ne_nil y)
  | cons x xs ih =>
    cases b with
    | nil =>
      exact absurd (append_eq_nil_iff.mp h).1 (escapeByte_ne_nil x)
    | cons y ys =>
      obtain ⟨rfl, hrest⟩ := escapeByte_append_inj h
      rw [ih hrest]

/-- Two names share a key exactly when they are equal, or one of them is not UTF-8 and the other
spells its escaped form. -/
theorem componentKey_eq_iff (a b : Name) :
    componentKey a = componentKey b ↔ a = b ∨
      (validUtf8 a = true ∧ validUtf8 b = false ∧ a = escapeName b) ∨
      (validUtf8 a = false ∧ validUtf8 b = true ∧ escapeName a = b) := by
  unfold componentKey
  cases ha : validUtf8 a <;> cases hb : validUtf8 b
  · simp [escapeName_injective.eq_iff]
  · simp only [Bool.false_eq_true, if_false, if_true, false_and, true_and, false_or]
    exact ⟨.inr, fun h => h.resolve_left fun hab => by rw [hab, hb] at ha; cases ha⟩
  · simp only [Bool.false_eq_true, if_false, if_true, false_and, true_and, or_false, Bool.true_eq_false]
    exact ⟨.inr, fun h => h.resolve_left fun hab => by rw [hab, hb] at ha; cases ha⟩
  · simp

theorem componentKey_str (s : Str) : componentKey s.1 = s.1 := if_pos s.2

/-! ## The operations on paths -/

def pathComponentKeys (path : Path) : List Name := path.map fun c => componentKey c.asOsStr

namespace DiskUsage

def getSize (t : DiskUsage Name) (path : Path) : Option UsedSpace :=
  if path.IsRoot then some t.space else t.spaceAt (pathComponentKeys path)

/-- `DiskUsage::update_size`: the root alone, or the root and every component. -/
def updateSize (t : DiskUsage Name) (path : Path) (delta : SpaceDelta) : DiskUsage Name :=
  if path.IsRoot then { t with space := t.space.update delta }
  else t.updateSizeIterator delta (pathComponentKeys path)

/-- `DiskUsage::remove_path`: the removed node and the tree without it. -/
def removePath (t : DiskUsage Name) (path : Path) : Option (DiskUsage Name × DiskUsage Name) :=
  if path.IsRoot then none else t.recursiveRemove (pathComponentKeys path)

end DiskUsage

/-- The node a path stands for, by the names on the way: `""` and `"/"` both stand for the root. -/
def location (path : Path) : List Name := if path.IsRoot then [] else path.map Component.asOsStr

def nodeKeys (path : Path) : List Name := (location path).map componentKey

theorem location_normal (p : Subpath) : location (p.map .normal) = p.map (·.1) := by
  cases p with
  | nil => rfl
  | cons n p =>
    rw [location, map_map]
    rfl

variable {path : Path}

theorem nodeKeys_of_isRoot (h : path.IsRoot) : nodeKeys path = [] := by
  rw [nodeKeys, location, if_pos h]
  rfl

theorem nodeKeys_of_not_isRoot (h : ¬ path.IsRoot) : nodeKeys path = pathComponentKeys path := by
  rw [nodeKeys, location, if_neg h, map_map]
  rfl

variable (t : DiskUsage Name)

theorem getSize_eq (path : Path) : t.getSize path = t.spaceAt (nodeKeys path) := by
  unfold getSize
  split_ifs with h
  · rw [nodeKeys_of_isRoot h]
    rfl
  · rw [nodeKeys_of_not_isRoot h]

theorem updateSize_eq (path : Path) (delta : SpaceDelta) :
    t.updateSize path delta = t.updateSizeIterator delta (nodeKeys path) := by
  unfold updateSize
  split_ifs with h
  · rw [nodeKeys_of_isRoot h]
    rfl
  · rw [nodeKeys_of_not_isRoot h]

theorem removePath_eq (path : Path) : t.removePath path = t.recursiveRemove (nodeKeys path) := by
  unfold removePath
  split_ifs with h
  · rw [nodeKeys_of_isRoot h]
    rfl
  · rw [nodeKeys_of_not_isRoot h]

/-! ## Runs -/

/-- A ledger of usages, by the names of the paths charged. -/
abbrev Usages := PathLedger Name (ℤ × ℤ)

/-- A tree to be added, with the usages it records. -/
structure Source where
  tree : DiskUsage Name
  usages : Usages
  represents : tree.Represents (usages.mapKeys componentKey)

inductive UsageOp
  | updateSize (path : Path) (delta : SpaceDelta)
  | updateSizeIterator (path : List Str) (delta : SpaceDelta)
  | removePath (path : Path)
  | addDirectory (target : List Str) (source : Source)
  | truncate

inductive UsageReply
  | unit
  | removed (node : Option (DiskUsage Name))
  | added (done : Bool)

namespace UsageOp

def step (t : DiskUsage Name) : UsageOp → DiskUsage Name × UsageReply
  | .updateSize path delta => (t.updateSize path delta, .unit)
  | .updateSizeIterator path delta => (t.updateSizeIterator delta (path.map (·.1)), .unit)
  | .removePath path =>
    match t.removePath path with
    | none => (t, .removed none)
    | some (removed, t') => (t', .removed (some removed))
  | .addDirectory target source =>
    let (done, t') := t.addDirectory (target.map (·.1)) source.tree
    (t', .added done)
  | .truncate => (t.truncate, .unit)

def charge (log : Usages) : UsageOp → Usages
  | .updateSize path delta => log ++ [(location path, delta.amount)]
  | .updateSizeIterator path delta => log ++ [(path.map (·.1), delta.amount)]
  | .removePath path => if location path = [] then log else log.without (location path)
  | .addDirectory target source =>
    if target = [] then log
    else log.without (target.map (·.1)) ++ source.usages.graft (target.map (·.1))
  | .truncate => []

def names : UsageOp → List Name
  | .updateSize path _ => location path
  | .updateSizeIterator path _ => path.map (·.1)
  | .removePath path => location path
  | .addDirectory target source => target.map (·.1) ++ source.usages.flatMap Prod.fst
  | .truncate => []

/-- No counter saturates in the call, given what was charged before it: a delta takes no more from a
path than was charged to exactly that path, and the root does not overflow. -/
def NoSaturation (log : Usages) : UsageOp → Prop
  | .updateSize path delta =>
    0 ≤ log.own (location path) + delta.amount ∧ log.total [] + delta.amount ≤ maxAmount
  | .updateSizeIterator path delta =>
    0 ≤ log.own (path.map (·.1)) + delta.amount ∧ log.total [] + delta.amount ≤ maxAmount
  | .addDirectory _ source => log.total [] + source.usages.total [] ≤ maxAmount
  | _ => True

end UsageOp

/-- What a run has charged and not removed. -/
def outstanding (ops : List UsageOp) : Usages := ops.foldl UsageOp.charge []

/-- No two of the names share a key. -/
def DistinctKeys (names : List Name) : Prop :=
  ∀ a ∈ names, ∀ b ∈ names, componentKey a = componentKey b → a = b

section distinct

variable {names : List Name}

theorem DistinctKeys.prefix_of_map (h : DistinctKeys names) {p q : List Name} (hp : p ⊆ names)
    (hq : q ⊆ names) (hpre : p.map componentKey <+: q.map componentKey) : p <+: q := by
  induction p generalizing q with
  | nil => exact nil_prefix
  | cons a p ih =>
    cases q with
    | nil => simp at hpre
    | cons b q =>
      obtain ⟨ha, hp⟩ := cons_subset.mp hp
      obtain ⟨hb, hq⟩ := cons_subset.mp hq
      obtain ⟨hkey, hrest⟩ := cons_prefix_cons.mp hpre
      exact cons_prefix_cons.mpr ⟨h a ha b hb hkey, ih hp hq hrest⟩

theorem DistinctKeys.eq_of_map (h : DistinctKeys names) {p q : List Name} (hp : p ⊆ names)
    (hq : q ⊆ names) (heq : p.map componentKey = q.map componentKey) : p = q := by
  have hpre := h.prefix_of_map hp hq (heq ▸ prefix_rfl)
  refine hpre.eq_of_length ?_
  simpa using congrArg length heq

end distinct

/-- The tree represents the ledger, which uses only the given names. -/
structure Records (names : List Name) (t : DiskUsage Name) (log : Usages) : Prop where
  represents : t.Represents (log.mapKeys componentKey)
  used : ∀ e ∈ log, e.1 ⊆ names

section records

variable {names : List Name} {t : DiskUsage Name} {log : Usages} {p : List Name}

section

variable (h : Records names t log)
include h

theorem Records.prefix_of_map (hd : DistinctKeys names) (hp : p ⊆ names) :
    ∀ e ∈ log, p.map componentKey <+: e.1.map componentKey → p <+: e.1 :=
  fun e he => hd.prefix_of_map hp (h.used e he)

theorem Records.total (hd : DistinctKeys names) (hp : p ⊆ names) :
    (log.mapKeys componentKey).total (p.map componentKey) = log.total p :=
  total_mapKeys componentKey (h.prefix_of_map hd hp)

theorem Records.of_same {log' : Usages} (hsame : SameCharges log log') : Records names t log' := by
  have hkeys := hsame.mapKeys componentKey
  refine ⟨⟨h.represents.sorted, fun q => ?_, fun e he => ?_, fun q => ?_⟩, fun e he => ?_⟩
  · rw [h.represents.space, hkeys.total]
  · have hpath := (hkeys.mem e.1).mpr (mem_map.mpr ⟨e, he, rfl⟩)
    obtain ⟨e', he', heq⟩ := mem_map.mp hpath
    exact heq ▸ h.represents.charged e' he'
  · rw [← hkeys.own]
    exact h.represents.own q
  · have hpath := (hsame.mem e.1).mpr (mem_map.mpr ⟨e, he, rfl⟩)
    obtain ⟨e', he', heq⟩ := mem_map.mp hpath
    exact heq ▸ h.used e' he'

theorem Records.own (hd : DistinctKeys names) (hp : p ⊆ names) :
    (log.mapKeys componentKey).own (p.map componentKey) = log.own p :=
  own_mapKeys componentKey fun e he => hd.eq_of_map (h.used e he) hp

theorem Records.own_nonneg (hd : DistinctKeys names) (hp : p ⊆ names) :
    0 ≤ log.own p := by
  rw [← h.own hd hp]
  exact h.represents.own _

theorem Records.total_nonneg : 0 ≤ log.total [] := by
  rw [← total_mapKeys_root componentKey]
  exact PathLedger.total_nonneg h.represents.own []

theorem Records.update (hd : DistinctKeys names) (hp : p ⊆ names)
    (delta : SpaceDelta) (hown : 0 ≤ log.own p + delta.amount) (hmax : log.total [] + delta.amount ≤ maxAmount) :
    Records names (t.updateSizeIterator delta (p.map componentKey)) (log ++ [(p, delta.amount)]) := by
  refine ⟨?_, fun e he => ?_⟩
  · have := h.represents.update delta (h.own hd hp ▸ hown) (total_mapKeys_root componentKey log ▸ hmax)
    rwa [show (log ++ [(p, delta.amount)]).mapKeys componentKey =
      log.mapKeys componentKey ++ [(p.map componentKey, delta.amount)] by simp [mapKeys]]
  · rcases mem_append.mp he with he | he
    · exact h.used e he
    · rw [mem_singleton.mp he]
      exact hp

theorem Records.without (hd : DistinctKeys names) (hp : p ⊆ names)
    {removed t' : DiskUsage Name} (hr : t.Removes (p.map componentKey) removed t') :
    Records names t' (log.without p) := by
  refine ⟨?_, fun e he => h.used e (mem_filter.mp he).1⟩
  rw [mapKeys_without componentKey (h.prefix_of_map hd hp)]
  exact h.represents.without hr

theorem Records.without_eq (hnone : t.getPathComponents (p.map componentKey) = none) : log.without p = log := by
  refine filter_eq_self.mpr fun e he => decide_eq_true fun hp => ?_
  have hsome := h.represents.charged (e.1.map componentKey, e.2) (mem_map.mpr ⟨e, he, rfl⟩)
  have hnode := isSome_spaceAt_of_prefix (hp.map componentKey) hsome
  rw [spaceAt, hnone] at hnode
  cases hnode

theorem Records.remove (hd : DistinctKeys names) (hp : p ⊆ names) (hne : p ≠ []) :
    (t.recursiveRemove (p.map componentKey) = none ∧ Records names t (log.without p)) ∨
      ∃ removed t', t.recursiveRemove (p.map componentKey) = some (removed, t') ∧
        t.Removes (p.map componentKey) removed t' ∧ Records names t' (log.without p) := by
  rcases recursiveRemove_spec h.represents.sorted (p := p.map componentKey)
      (by simpa using hne) with ⟨hnone, hnode⟩ | ⟨removed, t', hr, hrem⟩
  · exact .inl ⟨hnone, (h.without_eq hnode).symm ▸ h⟩
  · exact .inr ⟨removed, t', hr, hrem, h.without hd hp hrem⟩

theorem Records.addDirectory (hd : DistinctKeys names) (hp : p ⊆ names) (hne : p ≠ []) (source : Source)
    (hs : source.usages.flatMap Prod.fst ⊆ names) (hmax : log.total [] + source.usages.total [] ≤ maxAmount) :
    Records names (t.addDirectory (p.map componentKey) source.tree).2 (log.without p ++ source.usages.graft p) := by
  refine ⟨?_, fun e he => ?_⟩
  · have := h.represents.addDirectory source.represents (p := p.map componentKey)
      (by simpa using hne)
      (by rw [total_mapKeys_root, total_mapKeys_root]; exact hmax)
    rw [← mapKeys_without componentKey (h.prefix_of_map hd hp), ← mapKeys_graft] at this
    simpa [mapKeys] using this
  · rcases mem_append.mp he with he | he
    · exact h.used e (mem_filter.mp he).1
    · obtain ⟨e', he', rfl⟩ := mem_map.mp he
      exact append_subset.mpr ⟨hp, fun n hn => hs (mem_flatMap.mpr ⟨e', he', hn⟩)⟩

end

theorem map_componentKey_str (path : List Str) : (path.map (·.1)).map componentKey = path.map (·.1) := by
  rw [map_map]
  exact map_congr_left fun s _ => componentKey_str s

/-- **Step lemma.**  A call that saturates no counter keeps the tree in step with the ledger. -/
theorem Records.step (h : Records names t log) (hd : DistinctKeys names) (op : UsageOp)
    (hu : op.names ⊆ names) (hsat : op.NoSaturation log) :
    Records names (op.step t).1 (op.charge log) := by
  cases op with
  | updateSize path delta =>
    simp only [UsageOp.step, updateSize_eq]
    exact h.update hd hu delta hsat.1 hsat.2
  | updateSizeIterator path delta =>
    simp only [UsageOp.names] at hu
    have hstep := h.update hd hu delta hsat.1 hsat.2
    rw [map_componentKey_str] at hstep
    exact hstep
  | removePath path =>
    simp only [UsageOp.names] at hu
    simp only [UsageOp.step, UsageOp.charge, removePath_eq, nodeKeys]
    by_cases hne : location path = []
    · rw [hne]
      exact h
    · rw [if_neg hne]
      rcases h.remove hd hu hne with ⟨hr, hrec⟩ | ⟨removed, t', hr, -, hrec⟩
      · rw [hr]
        exact hrec
      · rw [hr]
        exact hrec
  | addDirectory target source =>
    obtain ⟨ht, hs⟩ := append_subset.mp hu
    simp only [UsageOp.charge]
    by_cases hne : target = []
    · rw [hne]
      exact h
    · rw [if_neg hne]
      have hstep := h.addDirectory hd ht (fun hnil => hne (map_eq_nil_iff.mp hnil)) source hs hsat
      rw [map_componentKey_str] at hstep
      exact hstep
  | truncate => exact ⟨represents_empty, fun e he => nomatch he⟩

end records

/-- The tree is a faithful record of the usages, for paths over the given names. -/
structure Faithful (names : List Name) (t : DiskUsage Name) (log : Usages) : Prop where
  /-- The entries of every node are strictly sorted by key. -/
  sorted : ∀ keys node, t.getPathComponents keys = some node → Sorted node.entries
  /-- Every node holds what was charged directly to it plus the space of its children. -/
  sums : ∀ keys node, t.getPathComponents keys = some node →
    node.space.amount = (log.mapKeys componentKey).own keys + (node.entries.map fun e => e.2.space.amount).sum
  /-- `get_size` reports what is outstanding at the path and below, nothing being zero. -/
  size : ∀ path, location path ⊆ names → ((t.getSize path).getD .zero).amount = log.total (location path)
  /-- `get_size` knows every path with something outstanding at it or below. -/
  found : ∀ path, ∀ e ∈ log, location path <+: e.1 → (t.getSize path).isSome = true
  /-- Removing a path takes exactly what is outstanding there from each of its ancestors, and
  returns the record of it. -/
  removal : ∀ path removed t', location path ⊆ names → t.removePath path = some (removed, t') →
    removed.Represents ((log.mapKeys componentKey).under (nodeKeys path)) ∧
      removed.space.amount = log.total (location path) ∧
      ∀ q, q <+: nodeKeys path → q ≠ nodeKeys path →
        ((t'.spaceAt q).getD .zero).amount = ((t.spaceAt q).getD .zero).amount - removed.space.amount

theorem Records.faithful {names : List Name} {t : DiskUsage Name} {log : Usages}
    (h : Records names t log) (hd : DistinctKeys names) : Faithful names t log where
  sorted := h.represents.sorted
  sums keys node hn := h.represents.space_eq_own_add_children hn
  size path hp := by rw [getSize_eq, h.represents.space, nodeKeys, h.total hd hp]
  found path e he hp := by
    rw [getSize_eq]
    exact isSome_spaceAt_of_prefix (hp.map componentKey)
      (h.represents.charged (e.1.map componentKey, e.2) (mem_map.mpr ⟨e, he, rfl⟩))
  removal path removed t' hp hr := by
    have hne : location path ≠ [] := by
      intro hroot
      rw [removePath_eq, nodeKeys, hroot] at hr
      cases hr
    rw [removePath_eq, nodeKeys] at hr
    rcases h.remove hd hp hne with ⟨hnone, -⟩ | ⟨removed', t'', hr', hrem, -⟩
    · rw [hnone] at hr
      cases hr
    · rw [hr'] at hr
      cases hr
      exact ⟨h.represents.under hrem, (h.represents.amount_node hrem.node).trans (h.total hd hp),
        fun q hq hqne => h.represents.amount_ancestor hrem hq hqne⟩

/-- **The usage tree is faithful, as long as names have distinct keys.**  Along every run from the
empty tree in which no counter saturates and no two names used share a key, the tree is a faithful
record of what the run has charged and not removed. -/
theorem usage_faithful (ops : List UsageOp) (hkeys : DistinctKeys (ops.flatMap UsageOp.names))
    (hsat : Steps UsageOp.step (fun tr _ op => op.NoSaturation (outstanding (tr.map Prod.fst))) empty ops) :
    Faithful (ops.flatMap UsageOp.names) (exec UsageOp.step empty ops) (outstanding ops) := by
  have hrun := inv_of_steps
    (I := fun tr t => Records (ops.flatMap UsageOp.names) t (outstanding (tr.map Prod.fst)))
    ⟨represents_empty, fun e he => nomatch he⟩ (fun tr t op hi hg => ?_) hsat.and_mem
  · rw [map_fst_trace] at hrun
    exact hrun.faithful hkeys
  · have hused : op.names ⊆ ops.flatMap UsageOp.names := fun n hn =>
      mem_flatMap.mpr ⟨op, hg.2, hn⟩
    have hstep := hi.step hkeys op hused hg.1
    simpa [outstanding] using hstep

/-- A file name that spells the escaped form of another: `%FF`. -/
def escapedName : FileName := ⟨[0x25, 0x46, 0x46], by decide⟩

/-- The name made of the single byte `FF`, which is not UTF-8. -/
def rawName : FileName := ⟨[0xFF], by decide⟩

theorem usage_faithful_removed :
    Faithful (flatMap UsageOp.names [.updateSize [.normal rawName] ⟨10, 16⟩, .removePath [.normal rawName]])
      (exec UsageOp.step empty [.updateSize [.normal rawName] ⟨10, 16⟩, .removePath [.normal rawName]])
      (outstanding [.updateSize [.normal rawName] ⟨10, 16⟩, .removePath [.normal rawName]]) := by
  refine usage_faithful _ ?_ ?_
  · unfold DistinctKeys
    decide
  · show Steps _ _ _ (([] ++ [_]) ++ [_])
    rw [steps_concat, steps_concat]
    exact ⟨⟨steps_nil, by decide, by decide⟩, trivial⟩

/-- Charging `%FF` and then the byte `FF` saturates nothing, but both go to one node: the size of
`%FF` is `17` where `10` was charged. -/
theorem escaped_name_shares_node : let ops : List UsageOp :=
      [.updateSize [.normal escapedName] ⟨10, 10⟩, .updateSize [.normal rawName] ⟨7, 7⟩]
    Steps UsageOp.step (fun tr _ op => op.NoSaturation (outstanding (tr.map Prod.fst)))
        empty ops ∧
      (exec UsageOp.step empty ops).getSize [.normal escapedName] = some ⟨17, 17⟩ ∧
      (outstanding ops).total (location [.normal escapedName]) = (10, 10) := by
  refine ⟨?_, by decide, by decide⟩
  show Steps _ _ _ (([] ++ [_]) ++ [_])
  rw [steps_concat, steps_concat]
  exact ⟨⟨steps_nil, by decide, by decide⟩, by decide, by decide⟩

/-! ## Names and nodes -/

/-- No name is the escaped form of another one. -/
def NoEscapes (names : List Name) : Prop :=
  ∀ a ∈ names, ∀ b ∈ names, validUtf8 a = false → validUtf8 b = true → escapeName a ≠ b

theorem NoEscapes.distinctKeys {names : List Name} (h : NoEscapes names) : DistinctKeys names := by
  intro a ha b hb hkey
  rcases (componentKey_eq_iff a b).mp hkey with heq | ⟨hvalid, hinvalid, heq⟩ | ⟨hinvalid, hvalid, heq⟩
  · exact heq
  · exact absurd heq.symm (h b hb a ha hinvalid hvalid)
  · exact absurd heq (h a ha b hb hinvalid hvalid)

/-- The calls that charge a path and that take it away. -/
def UsageOp.IsAccount : UsageOp → Prop
  | .updateSize _ _ | .removePath _ => True
  | _ => False

theorem removes_of_removePath {t t' removed : DiskUsage Name} (h : t.SortedAll)
    (hremove : t.removePath path = some (removed, t')) : t.Removes (nodeKeys path) removed t' := by
  rw [removePath_eq] at hremove
  have hne : nodeKeys path ≠ [] := fun hnil => by rw [hnil] at hremove; cases hremove
  rcases recursiveRemove_spec h hne with ⟨hnone, _⟩ | ⟨_, _, hsome, hremoves⟩
  · rw [hnone] at hremove
    cases hremove
  · rw [hsome] at hremove
    cases hremove
    exact hremoves

theorem sortedAll_exec {ops : List UsageOp} (hops : ∀ op ∈ ops, op.IsAccount) :
    (exec UsageOp.step empty ops).SortedAll := by
  induction ops using reverseRecOn with
  | nil => exact sortedAll_empty
  | append_singleton ops op ih =>
    have hsorted := ih fun op hop => hops op (mem_append_left _ hop)
    rw [exec_concat]
    cases op with
    | updateSize path delta =>
      rw [UsageOp.step, updateSize_eq]
      exact hsorted.updateSizeIterator delta _
    | removePath path =>
      rw [UsageOp.step]
      split
      · exact hsorted
      next removed t' hremove => exact (removes_of_removePath hsorted hremove).sorted
    | _ => exact (hops _ (mem_append_right _ (mem_singleton.mpr rfl))).elim

/-- **Different names do not share a node, as long as no name is the escaped form of another.**  After every run of
charges and removals, a charge to one path changes the node of another path only if that path is above it, and a
removal only if it is above or below. -/
theorem leaf_nodes_apart (ops : List UsageOp) (hops : ∀ op ∈ ops, op.IsAccount) {names : List Name}
    (hnames : NoEscapes names) {p q : Path} (hp : location p ⊆ names) (hq : location q ⊆ names)
    (hne : location p ≠ location q) :
    let t := exec UsageOp.step empty ops
    nodeKeys p ≠ nodeKeys q ∧ (¬location q <+: location p →
      (∀ delta, (t.updateSize p delta).getSize q = t.getSize q) ∧
      (¬location p <+: location q → ∀ removed t', t.removePath p = some (removed, t') → t'.getSize q = t.getSize q)) := by
  intro t
  have hsorted : t.SortedAll := sortedAll_exec hops
  have hdistinct := hnames.distinctKeys
  refine ⟨fun heq => hne (hdistinct.eq_of_map hp hq heq), fun habove => ?_⟩
  have hkeys : ¬nodeKeys q <+: nodeKeys p := fun hle => habove (hdistinct.prefix_of_map hq hp hle)
  refine ⟨fun delta => ?_, fun hbelow removed t' hremove => ?_⟩
  · rw [getSize_eq, getSize_eq, updateSize_eq, spaceAt_updateSizeIterator hsorted, if_neg hkeys]
  · have hkeys' : ¬nodeKeys p <+: nodeKeys q := fun hle => hbelow (hdistinct.prefix_of_map hp hq hle)
    rw [getSize_eq, getSize_eq, (removes_of_removePath hsorted hremove).space, if_neg hkeys', if_neg hkeys]

theorem leaf_nodes_apart_below :
    let t := exec UsageOp.step empty [.updateSize [.normal rawName, .normal rawName] ⟨7, 7⟩]
    (t.updateSize [.normal rawName] ⟨10, 10⟩).getSize [.normal rawName, .normal rawName] = some ⟨7, 7⟩ := by
  intro t
  have hops : ∀ op ∈ [UsageOp.updateSize [.normal rawName, .normal rawName] ⟨7, 7⟩], op.IsAccount := by
    simp [UsageOp.IsAccount]
  have hnames : NoEscapes [rawName.1] := by unfold NoEscapes; decide
  exact ((leaf_nodes_apart _ hops hnames (by decide) (by decide) (by decide)).2 (by decide)).1 ⟨10, 10⟩

/-- A charge to the byte `FF` is added to the node of `%FF`, and removing it removes that node. -/
theorem escaped_name_removed :
    let t := exec UsageOp.step empty [.updateSize [.normal escapedName] ⟨10, 10⟩, .updateSize [.normal rawName] ⟨7, 7⟩]
    location [.normal escapedName] ≠ location [.normal rawName] ∧
      nodeKeys [.normal escapedName] = nodeKeys [.normal rawName] ∧
      t.getSize [.normal escapedName] = some ⟨17, 17⟩ ∧
      (UsageOp.step t (.removePath [.normal rawName])).1.getSize [.normal escapedName] = none := by
  decide

end Wings.Filesystem
