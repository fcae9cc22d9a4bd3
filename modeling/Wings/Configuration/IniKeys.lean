import Wings.Configuration.Ini

/-!
# Wings.Configuration.IniKeys — the property lines of a rewritten INI file

For one section and one key the pass is a small machine: the replacements that are left for them, of which a
property line uses up the first and the end of the section inserts those that can be.

* **`keys_not_duplicated_iff`**
-/

namespace Wings.Configuration.Ini

open Lib List PendingReplacement State

/-! ## Counting -/

def endOf (current : Option Text) : List Line → Option Text
  | [] => current
  | .section name :: rest => endOf (some name) rest
  | .property _ _ :: rest => endOf current rest
  | .other :: rest => endOf current rest

variable {s : Option Text} {k : Text}

theorem endOf_append (current : Option Text) (a b : List Line) :
    endOf current (a ++ b) = endOf (endOf current a) b := by
  induction a generalizing current with
  | nil => rfl
  | cons l a ih => cases l <;> exact ih _

theorem countFrom_append (current : Option Text) (a b : List Line) :
    countFrom s k current (a ++ b) = countFrom s k current a + countFrom s k (endOf current a) b := by
  induction a generalizing current with
  | nil => exact (Nat.zero_add _).symm
  | cons l a ih =>
    cases l with
    | «section» name => exact ih _
    | property key val =>
      rw [cons_append, countFrom, countFrom, ih, Nat.add_assoc]
      rfl
    | other => exact ih _

/-- The property lines of the key in the first part of the section. -/
def firstCount (s : Option Text) (k : Text) (current : Option Text) : List Line → ℕ
  | [] => 0
  | .section name :: rest => if current = s then 0 else firstCount s k (some name) rest
  | .property key _ :: rest => (if current = s ∧ key = k then 1 else 0) + firstCount s k current rest
  | .other :: rest => firstCount s k current rest

/-- The lines that are inserted, when these replacements are left for the section and the key. -/
def gain (s : Option Text) (k : Text) (current : Option Text) (left : List PendingReplacement) : List Line → ℕ
  | [] => if current = s then left.countP (·.insertValue.isSome) else 0
  | .section name :: rest =>
    if current = s then left.countP (·.insertValue.isSome) + gain s k (some name) (left.filter (·.insertValue.isNone)) rest
    else gain s k (some name) left rest
  | .property key _ :: rest => gain s k current (if current = s ∧ key = k then left.tail else left) rest
  | .other :: rest => gain s k current left rest

theorem gain_eq_zero {left : List PendingReplacement} (h : ∀ p ∈ left, p.insertValue.isSome = false)
    (current : Option Text) (lines : List Line) : gain s k current left lines = 0 := by
  induction lines generalizing current left with
  | nil =>
    rw [gain]
    split_ifs
    · exact countP_eq_zero.mpr fun p hp => by simp [h p hp]
    · rfl
  | cons l lines ih =>
    cases l with
    | «section» name =>
      rw [gain]
      split_ifs
      · rw [countP_eq_zero.mpr fun p hp => by simp [h p hp], Nat.zero_add]
        exact ih (fun p hp => h p (mem_of_mem_filter hp)) _
      · exact ih h _
    | property key val =>
      refine ih (fun p hp => h p ?_) current
      split_ifs at hp
      · exact mem_of_mem_tail hp
      · exact hp
    | other => exact ih h _

theorem gain_of_current (left : List PendingReplacement) (lines : List Line) :
    gain s k s left lines = (left.drop (firstCount s k s lines)).countP (·.insertValue.isSome) := by
  induction lines generalizing left with
  | nil => rw [gain, if_pos rfl]; rfl
  | cons l lines ih =>
    cases l with
    | «section» name =>
      rw [gain, if_pos rfl, firstCount, if_pos rfl, gain_eq_zero, Nat.add_zero, drop_zero]
      simp
    | property key val =>
      rw [gain, firstCount, ih]
      by_cases hkey : key = k
      · rw [if_pos ⟨rfl, hkey⟩, if_pos ⟨rfl, hkey⟩, ← drop_one, drop_drop]
      · rw [if_neg fun h => hkey h.2, if_neg fun h => hkey h.2, Nat.zero_add]
    | other => exact ih left

/-- **The lines that are inserted for a key that the file has**: those of the replacements that the first part of
the section does not use up. -/
theorem gain_eq {current : Option Text} {lines : List Line} (h : 0 < countFrom s k current lines)
    (left : List PendingReplacement) :
    gain s k current left lines = (left.drop (firstCount s k current lines)).countP (·.insertValue.isSome) := by
  by_cases hcurrent : current = s
  · rw [hcurrent, gain_of_current]
  induction lines generalizing current left with
  | nil => exact absurd h (Nat.lt_irrefl 0)
  | cons l lines ih =>
    cases l with
    | «section» name =>
      rw [gain, if_neg hcurrent, firstCount, if_neg hcurrent]
      by_cases hname : some name = s
      · rw [hname, gain_of_current]
      · exact ih h left hname
    | property key val =>
      rw [countFrom, if_neg fun h => hcurrent h.1, Nat.zero_add] at h
      rw [gain, if_neg fun h => hcurrent h.1, firstCount, if_neg fun h => hcurrent h.1, Nat.zero_add]
      exact ih h left hcurrent
    | other => exact ih h left hcurrent

/-! ## One pass -/

/-- A replacement whose section and key are ones that a line can have, and that never gives a value with a line
break. -/
structure Clean (reader : Reader) (r : ResolvedReplacement) : Prop where
  key : ∃ val, reader.read ((target r).2 ++ ['=']) = [.property (target r).2 val]
  name : ∀ name, (target r).1 = some name → ∃ raw, reader.read raw = [.section name]
  inserted : ∀ v, r.text none = some v → OneLine v
  updated : ∀ e v, OneLine e → r.text (some e) = some v → OneLine v

section Pass

variable (reader : Reader)

/-- What is pending, and where the output is. -/
structure Sound (st : State) : Prop where
  pending : ∀ p ∈ st.pending, ∃ r b, Clean reader r ∧ p = { pendingOf r with applied := b }
  current : endOf none (st.out.flatMap reader.read) = st.current

/-- The property lines that have been written. -/
def State.count (s : Option Text) (k : Text) (st : State) : ℕ := Ini.count s k (st.out.flatMap reader.read)

/-- The replacements that are left for a section and a key. -/
def State.left (s : Option Text) (k : Text) (st : State) : List PendingReplacement := st.pending.filter (·.matches_ s k)

variable {reader} {st : State}

section

variable (hcurrent : endOf none (st.out.flatMap reader.read) = st.current)
include hcurrent

theorem count_append (more : List Text) :
    count s k ((st.out ++ more).flatMap reader.read) =
      st.count reader s k + countFrom s k st.current (more.flatMap reader.read) := by
  rw [count, flatMap_append, countFrom_append, hcurrent]
  rfl

theorem endOf_out_append (more : List Text) :
    endOf none ((st.out ++ more).flatMap reader.read) = endOf st.current (more.flatMap reader.read) := by
  rw [flatMap_append, endOf_append, hcurrent]

end

variable {ps : List PendingReplacement}

theorem read_inserted
    (hps : ∀ p ∈ ps, ∃ r b, Clean reader r ∧ p = { pendingOf r with applied := b }) (name : Option Text) :
    ∀ p ∈ ps.filter (·.inserts name), ∃ val, reader.read p.line = [.property p.key val] := by
  intro p hp
  rw [mem_filter, inserts, Bool.and_eq_true] at hp
  obtain ⟨r, b, hr, rfl⟩ := hps p hp.1
  obtain ⟨value, hvalue⟩ := Option.isSome_iff_exists.mp hp.2.2
  obtain ⟨val, hraw⟩ := hr.key
  rw [line, hvalue]
  exact reader.insert hraw (hr.inserted value hvalue)

theorem read_lines (hps : ∀ p ∈ ps, ∃ val, reader.read p.line = [.property p.key val]) (current : Option Text) :
    countFrom s k current ((ps.map (·.line)).flatMap reader.read) =
        (if current = s then ps.countP (·.key = k) else 0) ∧
      endOf current ((ps.map (·.line)).flatMap reader.read) = current := by
  induction ps with
  | nil => exact ⟨by split_ifs <;> rfl, rfl⟩
  | cons p ps ih =>
    rw [forall_mem_cons] at hps
    obtain ⟨⟨val, hval⟩, hps⟩ := hps
    obtain ⟨ihcount, ihend⟩ := ih hps
    rw [map_cons, flatMap_cons, hval, singleton_append, countFrom, endOf, ihcount, ihend]
    refine ⟨?_, rfl⟩
    by_cases hcurrent : current = s
    · rw [countP_cons, Nat.add_comm]
      simp [hcurrent]
    · rw [if_neg hcurrent, if_neg hcurrent, if_neg fun h => hcurrent h.1]

theorem filter_applied (current : Option Text) (ps : List PendingReplacement) :
    (ps.map fun p => if p.inserts current then { p with applied := true } else p).filter (·.matches_ s k) =
      if current = s then (ps.filter (·.matches_ s k)).filter (·.insertValue.isNone) else ps.filter (·.matches_ s k) := by
  induction ps with
  | nil => split_ifs <;> rfl
  | cons p ps ih =>
    rw [map_cons, filter_cons, filter_cons, ih]
    obtain ⟨section_, key, resolved, insertValue, applied⟩ := p
    by_cases hcurrent : current = s
    · -- what can be inserted is used up, and what is left cannot be
      by_cases hsection : section_ = s <;> cases applied <;> cases insertValue <;>
        simp [matches_, inserts, hcurrent, hsection, apply_ite]
    · by_cases hsection : section_ = current <;> cases applied <;> cases insertValue <;>
        simp [matches_, inserts, hcurrent, hsection]

theorem sectionEnd_spec (h : Sound reader st) (s : Option Text) (k : Text) :
    Sound reader st.sectionEnd ∧ st.sectionEnd.current = st.current ∧
      st.sectionEnd.count reader s k =
        st.count reader s k + (if st.current = s then (st.left s k).countP (·.insertValue.isSome) else 0) ∧
      st.sectionEnd.left s k =
        if st.current = s then (st.left s k).filter (·.insertValue.isNone) else st.left s k := by
  obtain ⟨hcount, hend⟩ := read_lines (read_inserted h.pending st.current) st.current
  refine ⟨⟨?_, ?_⟩, rfl, ?_, ?_⟩
  · intro p hp
    obtain ⟨q, hq, rfl⟩ := mem_map.mp hp
    obtain ⟨r, b, hr, hqr⟩ := h.pending q hq
    split_ifs
    · exact ⟨r, true, hr, by rw [hqr]⟩
    · exact ⟨r, b, hr, hqr⟩
  · exact (endOf_out_append h.current _).trans hend
  · refine (count_append h.current _).trans ?_
    rw [hcount, left]
    split_ifs with hcurrent
    · rw [countP_filter, countP_filter, hcurrent]
      refine congrArg (st.count reader s k + ·) (countP_congr fun p _ => ?_)
      simp only [inserts, matches_, Bool.and_eq_true, decide_eq_true_eq]
      tauto
    · rfl
  · exact filter_applied st.current st.pending

theorem takeMatch_spec (current : Option Text) (key : Text) (ps : List PendingReplacement) :
    match takeMatch current key ps with
    | none => ∀ p ∈ ps, p.matches_ current key = false
    | some (p, qs) => p ∈ ps ∧ p.key = key ∧ (∀ q ∈ qs, q ∈ ps ∨ q = { p with applied := true }) ∧
        qs.filter (·.matches_ s k) =
          if current = s ∧ key = k then (ps.filter (·.matches_ s k)).tail else ps.filter (·.matches_ s k) := by
  induction ps with
  | nil => exact nofun
  | cons p ps ih =>
    rw [takeMatch]
    by_cases hmatches : p.matches_ current key = true
    · rw [if_pos hmatches]
      refine ⟨mem_cons_self, by simp_all [matches_], ?_, ?_⟩
      · rw [forall_mem_cons]
        exact ⟨.inr rfl, fun q hq => .inl (mem_cons_of_mem p hq)⟩
      · rw [filter_cons_of_neg (Bool.false_ne_true)]
        by_cases hsame : current = s ∧ key = k
        · obtain ⟨rfl, rfl⟩ := hsame
          rw [if_pos ⟨rfl, rfl⟩, filter_cons_of_pos hmatches, tail_cons]
        · rw [if_neg hsame, filter_cons_of_neg]
          simp only [matches_, Bool.and_eq_true, decide_eq_true_eq] at hmatches ⊢
          exact fun h => hsame ⟨hmatches.1.2.symm.trans h.1.2, hmatches.2.symm.trans h.2⟩
    · rw [if_neg hmatches]
      cases htake : takeMatch current key ps with
      | none =>
        rw [htake] at ih
        exact forall_mem_cons.mpr ⟨Bool.eq_false_iff.mpr hmatches, ih⟩
      | some found =>
        rw [htake] at ih
        obtain ⟨hq, hkey, hqs, hfilter⟩ := ih
        refine ⟨mem_cons_of_mem p hq, hkey, ?_, ?_⟩
        · rw [forall_mem_cons]
          exact ⟨.inl mem_cons_self, fun r hr => (hqs r hr).imp_left (mem_cons_of_mem p)⟩
        · rw [filter_cons, filter_cons, hfilter]
          split_ifs with hp hsame
          · obtain ⟨rfl, rfl⟩ := hsame
            exact absurd hp hmatches
          all_goals rfl

theorem oneLine_of_subset {a b : Text} (h : ∀ c ∈ a, c ∈ b) (hb : OneLine b) : OneLine a :=
  ⟨fun hmem => hb.1 (h _ hmem), fun hmem => hb.2 (h _ hmem)⟩

theorem mem_of_mem_stripFrom {before : Text} {after : Bool} {rest : Text} :
    ∀ c ∈ stripFrom before after rest, c ∈ before ++ rest := by
  induction rest generalizing before after with
  | nil => rw [append_nil]; exact fun _ h => h
  | cons ch rest ih =>
    intro c hc
    rw [stripFrom] at hc
    split_ifs at hc
    · exact mem_append_left _ ((List.rdropWhile_prefix _ _).mem hc)
    · have := ih c hc
      rwa [append_assoc] at this

theorem oneLine_existing {raw key : Text} {val : Option Text} (h : reader.read raw = [.property key val]) :
    OneLine (stripInlineComment (trim (val.getD []))) := by
  cases val with
  | none => exact ⟨by decide, by decide⟩
  | some val =>
    refine oneLine_of_subset (fun c hc => ?_) (reader.value h)
    have hstrip : c ∈ trim val := mem_of_mem_stripFrom c hc
    exact (dropWhile_suffix _).mem ((List.rdropWhile_prefix _ _).mem hstrip)

theorem property_spec (h : Sound reader st) {key raw : Text} {val : Option Text}
    (hraw : reader.read raw = [.property key val]) (s : Option Text) (k : Text) :
    Sound reader (st.property key val raw) ∧ (st.property key val raw).current = st.current ∧
      (st.property key val raw).count reader s k =
        st.count reader s k + (if st.current = s ∧ key = k then 1 else 0) ∧
      (st.property key val raw).left s k = if st.current = s ∧ key = k then (st.left s k).tail else st.left s k := by
  -- whatever the line is, it is a property line with the key
  have hline : ∀ {line val'}, reader.read line = [.property key val'] →
      endOf none ((st.out ++ [line]).flatMap reader.read) = st.current ∧
        count s k ((st.out ++ [line]).flatMap reader.read) =
          st.count reader s k + (if st.current = s ∧ key = k then 1 else 0) := by
    intro line val' hread
    rw [endOf_out_append h.current, count_append h.current, flatMap_singleton, hread]
    exact ⟨rfl, rfl⟩
  have hspec := takeMatch_spec (s := s) (k := k) st.current key st.pending
  unfold property
  cases htake : takeMatch st.current key st.pending with
  | none =>
    rw [htake] at hspec
    obtain ⟨hend, hcount⟩ := hline hraw
    refine ⟨⟨h.pending, hend⟩, rfl, hcount, ?_⟩
    split_ifs with hsame
    · obtain ⟨rfl, rfl⟩ := hsame
      have hnil : st.left st.current key = [] := filter_eq_nil_iff.mpr fun p hp => by simp [hspec p hp]
      exact hnil.trans (congrArg tail hnil).symm
    · rfl
  | some found =>
    obtain ⟨p, pending⟩ := found
    rw [htake] at hspec
    obtain ⟨hp, hkey, hpending, hfilter⟩ := hspec
    obtain ⟨r, b, hr, hpr⟩ := h.pending p hp
    dsimp -zeta only
    extract_lets existing line
    have hread : ∃ val', reader.read line = [.property key val'] := by
      unfold line
      split
      next value htext =>
        have hresolved : p.resolved = r := by rw [hpr]; rfl
        rw [hresolved] at htext
        have hvalue := hr.updated _ value (oneLine_existing hraw) htext
        by_cases hsign : '=' ∈ raw
        · exact reader.rewrite hraw hsign hvalue
        · obtain ⟨val', hown⟩ := hr.key
          have hline : rewriteProperty raw key value = key ++ '=' :: value := by
            rw [rewriteProperty, dropWhile_eq_nil_iff.mpr fun c hc => by simpa using ne_of_mem_of_not_mem hc hsign]
          obtain rfl : key = (target r).2 := by rw [← hkey, hpr]; rfl
          rw [hline]
          exact reader.insert hown hvalue
      next => exact ⟨val, hraw⟩
    obtain ⟨val', hread⟩ := hread
    obtain ⟨hend, hcount⟩ := hline hread
    refine ⟨⟨fun q hq => ?_, hend⟩, rfl, hcount, hfilter⟩
    rcases hpending q hq with hq | rfl
    · exact h.pending q hq
    · exact ⟨r, true, hr, by rw [hpr]⟩

theorem copy_spec (st' : State) (h : Sound reader st) {raw : Text} {line : Line} (hraw : reader.read raw = [line])
    (hline : ∀ key val, line ≠ .property key val) (hpending : st'.pending = st.pending)
    (hcurrent : st'.current = endOf st.current [line]) (hout : st'.out = st.out ++ [raw]) (s : Option Text) (k : Text) :
    Sound reader st' ∧ st'.count reader s k = st.count reader s k ∧ st'.left s k = st.left s k := by
  refine ⟨⟨by rw [hpending]; exact h.pending, ?_⟩, ?_, by rw [left, hpending]; rfl⟩
  · rw [hout, endOf_out_append h.current, flatMap_singleton, hraw, hcurrent]
  · rw [State.count, hout, count_append h.current, flatMap_singleton, hraw]
    cases line with
    | property key val => exact absurd rfl (hline key val)
    | «section» name => rfl
    | other => rfl

variable {lines : List (Line × Text)}

/-- **One pass over the lines of a file** writes their property lines and those that are inserted. -/
theorem count_run (h : Sound reader st) (hlines : ∀ l ∈ lines, reader.read l.2 = [l.1]) (s : Option Text) (k : Text) :
    Sound reader ((items lines).foldl item st) ∧
      ((items lines).foldl item st).count reader s k = st.count reader s k +
        countFrom s k st.current (lines.map Prod.fst) + gain s k st.current (st.left s k) (lines.map Prod.fst) := by
  induction lines generalizing st with
  | nil =>
    obtain ⟨hsound, -, hcount, -⟩ := sectionEnd_spec h s k
    exact ⟨hsound, hcount⟩
  | cons l lines ih =>
    rw [forall_mem_cons] at hlines
    obtain ⟨line, raw⟩ := l
    rw [map_cons]
    cases line with
    | «section» name =>
      obtain ⟨hsound, -, hcount, hleft⟩ := sectionEnd_spec h s k
      obtain ⟨hsound', hcount', hleft'⟩ :=
        copy_spec (st.sectionEnd.item (.section name raw)) hsound hlines.1 nofun rfl rfl rfl s k
      obtain ⟨hrun, hrunCount⟩ := ih hsound' hlines.2
      refine ⟨hrun, hrunCount.trans ?_⟩
      have hname : (st.sectionEnd.item (.section name raw)).current = some name := rfl
      rw [hname, hcount', hleft', hcount, hleft, countFrom, gain]
      split_ifs <;> omega
    | property key val =>
      obtain ⟨hsound, hcurrent, hcount, hleft⟩ := property_spec h hlines.1 s k
      obtain ⟨hrun, hrunCount⟩ := ih hsound hlines.2
      refine ⟨hrun, hrunCount.trans ?_⟩
      rw [hcurrent, hleft, countFrom, gain]
      omega
    | other =>
      obtain ⟨hsound, hcount, hleft⟩ := copy_spec (st.item (.other raw)) h hlines.1 nofun rfl rfl rfl s k
      obtain ⟨hrun, hrunCount⟩ := ih hsound hlines.2
      refine ⟨hrun, hrunCount.trans ?_⟩
      rw [hcount]
      rfl

/-! ## Sections that are added -/

/-- Nothing is left to be inserted into the section. -/
def Ended (s : Option Text) (st : State) : Prop := ∀ p ∈ st.pending, p.inserts s = false

theorem ended_item (h : Ended s st) (item : Item) : Ended s (st.item item) := by
  have hused : ∀ p : PendingReplacement, ({ p with applied := true }).inserts s = false := fun _ => rfl
  cases item with
  | sectionEnd =>
    intro p hp
    obtain ⟨q, hq, rfl⟩ := mem_map.mp hp
    split_ifs
    · exact hused q
    · exact h q hq
  | «section» name raw => exact h
  | property key val raw =>
    have hspec := takeMatch_spec (s := none) (k := []) st.current key st.pending
    show Ended s (st.property key val raw)
    unfold property
    cases htake : takeMatch st.current key st.pending with
    | none => exact h
    | some found =>
      rw [htake] at hspec
      intro q hq
      rcases hspec.2.2.1 q hq with hq | rfl
      · exact h q hq
      · exact hused _
  | other raw => exact h

theorem ended_sectionEnd (h : st.current = s) : Ended s st.sectionEnd := by
  intro p hp
  obtain ⟨q, hq, rfl⟩ := mem_map.mp hp
  rw [h]
  split_ifs with hinserts
  · rfl
  · exact Bool.eq_false_iff.mpr hinserts

theorem current_property (st : State) (key : Text) (val : Option Text) (raw : Text) :
    (st.property key val raw).current = st.current := by
  unfold property
  cases takeMatch st.current key st.pending <;> rfl

theorem ended_run (h : Ended s st ∨ st.current = s ∨ 0 < countFrom s k st.current (lines.map Prod.fst)) :
    Ended s ((items lines).foldl item st) := by
  induction lines generalizing st with
  | nil =>
    rcases h with h | h | h
    · exact ended_item h .sectionEnd
    · exact ended_sectionEnd h
    · exact absurd h (Nat.lt_irrefl 0)
  | cons l lines ih =>
    obtain ⟨line, raw⟩ := l
    cases line with
    | «section» name =>
      refine @ih (st.sectionEnd.item (.section name raw)) ?_
      rcases h with h | h | h
      · exact .inl (ended_item h .sectionEnd)
      · exact .inl (ended_sectionEnd h)
      · exact .inr (.inr h)
    | property key val =>
      refine @ih (st.property key val raw) ?_
      rw [current_property]
      rcases h with h | h | h
      · exact .inl (ended_item h (.property key val raw))
      · exact .inr (.inl h)
      · rw [map_cons, countFrom] at h
        by_cases hsame : st.current = s ∧ key = k
        · exact .inr (.inl hsame.1)
        · rw [if_neg hsame, Nat.zero_add] at h
          exact .inr (.inr h)
    | other => exact @ih (st.item (.other raw)) h

theorem exists_of_mem_missingSections {name : Text} (h : name ∈ st.missingSections) :
    ∃ p ∈ st.pending, p.inserts (some name) = true := by
  have hseen : ∀ (ps : List PendingReplacement) (seen : List Text), name ∈ ps.foldl seeSection seen →
      name ∈ seen ∨ ∃ p ∈ ps, p.inserts (some name) = true := by
    intro ps
    induction ps with
    | nil => exact fun seen h => .inl h
    | cons p ps ih =>
      intro seen h
      rcases ih _ h with h | ⟨q, hq, hinserts⟩
      · unfold seeSection at h
        split at h
        · rename_i value name' happlied hvalue hsection
          split_ifs at h
          · exact .inl h
          · rcases mem_append.mp h with h | h
            · exact .inl h
            · rw [mem_singleton] at h
              simp [inserts, happlied, hvalue, hsection, h]
        · exact .inl h
      · exact .inr ⟨q, mem_cons_of_mem p hq, hinserts⟩
  exact (hseen st.pending [] h).resolve_left not_mem_nil

theorem count_addSection (hpending : ∀ p ∈ st.pending, ∃ r b, Clean reader r ∧ p = { pendingOf r with applied := b })
    {name : Text} (hname : ∃ p ∈ st.pending, p.inserts (some name) = true) (hs : some name ≠ s) :
    (st.addSection name).count reader s k = st.count reader s k := by
  obtain ⟨p, hp, hinserts⟩ := hname
  obtain ⟨r, b, hr, hpr⟩ := hpending p hp
  simp only [inserts, Bool.and_eq_true, decide_eq_true_eq] at hinserts
  have hsection : (target r).1 = some name := by
    rw [← hinserts.1.2, hpr]
    rfl
  obtain ⟨raw, hraw⟩ := hr.name name hsection
  have hblank : countFrom s k (endOf none (st.out.flatMap reader.read))
      ((if st.out = [] then [] else [[]]).flatMap reader.read) = 0 := by
    split_ifs
    · rfl
    · rw [flatMap_singleton, reader.blank]
      rfl
  unfold State.count addSection
  rw [count, flatMap_append, flatMap_append, flatMap_append, flatMap_singleton, reader.header hraw,
    append_assoc, countFrom_append, countFrom_append, hblank, singleton_append,
    countFrom, (read_lines (read_inserted hpending _) _).1, if_neg hs]
  rfl

theorem count_addSections {names : List Text} {st : State}
    (hpending : ∀ p ∈ st.pending, ∃ r b, Clean reader r ∧ p = { pendingOf r with applied := b })
    (hnames : ∀ name ∈ names, some name ≠ s ∧ ∃ p ∈ st.pending, p.inserts (some name) = true) :
    (names.foldl addSection st).count reader s k = st.count reader s k := by
  induction names generalizing st with
  | nil => rfl
  | cons name names ih =>
    rw [forall_mem_cons] at hnames
    exact (@ih (st.addSection name) hpending hnames.2).trans (count_addSection hpending hnames.1.2 hnames.1.1)

/-! ## The whole file -/

/-- The replacements for a section and a key, in their order. -/
def targeting (s : Option Text) (k : Text) (replacements : List ResolvedReplacement) : List ResolvedReplacement :=
  replacements.filter (target · = (s, k))

theorem matches_pendingOf {r : ResolvedReplacement} : (pendingOf r).matches_ s k = true ↔ target r = (s, k) := by
  rw [matches_, Bool.and_eq_true, Bool.and_eq_true, decide_eq_true_iff, decide_eq_true_iff]
  exact ⟨fun h => Prod.ext h.1.2 h.2, fun h => ⟨⟨rfl, congrArg Prod.fst h⟩, congrArg Prod.snd h⟩⟩

theorem count_written {replacements : List ResolvedReplacement} {file : IniFile reader}
    (hclean : ∀ r ∈ replacements, Clean reader r) (h : 0 < count s k (file.lines.map Prod.fst)) :
    count s k ((written replacements file.lines).flatMap reader.read) = count s k (file.lines.map Prod.fst) +
      ((targeting s k replacements).drop (firstCount s k none (file.lines.map Prod.fst))).countP
        (fun r => (r.text none).isSome) := by
  have hstart : Sound reader ⟨replacements.map pendingOf, none, []⟩ := by
    refine ⟨fun p hp => ?_, rfl⟩
    obtain ⟨r, hr, rfl⟩ := mem_map.mp hp
    exact ⟨r, false, hclean r hr, rfl⟩
  obtain ⟨hsound, hcount⟩ := count_run hstart file.faithful s k
  have hended : Ended s ((items file.lines).foldl item ⟨replacements.map pendingOf, none, []⟩) :=
    ended_run (.inr (.inr h))
  have hleft : left s k ⟨replacements.map pendingOf, none, []⟩ = (targeting s k replacements).map pendingOf := by
    rw [left, filter_map]
    refine congrArg (map pendingOf) (filter_congr fun r _ => ?_)
    rw [Bool.eq_iff_iff, decide_eq_true_iff]
    exact matches_pendingOf
  have hsections := count_addSections (k := k) hsound.pending fun name hname => by
    refine ⟨fun heq => ?_, exists_of_mem_missingSections hname⟩
    obtain ⟨p, hp, hinserts⟩ := exists_of_mem_missingSections hname
    rw [heq, hended p hp] at hinserts
    exact absurd hinserts Bool.false_ne_true
  refine (show _ = State.count reader s k _ from rfl).trans (hsections.trans (hcount.trans ?_))
  rw [hleft, gain_eq h, ← map_drop, countP_map]
  show 0 + _ + _ = _
  rw [Nat.zero_add]
  rfl

/-- **No key that the file has is duplicated exactly if**, for each of them, the replacements that can insert are
among the first ones for it, as many as the first part of its section has lines. -/
theorem keys_not_duplicated_iff (file : IniFile reader) {replacements : List ResolvedReplacement}
    (hclean : ∀ r ∈ replacements, Clean reader r) :
    (∀ s k, 0 < count s k (file.lines.map Prod.fst) →
        count s k ((written replacements file.lines).flatMap reader.read) = count s k (file.lines.map Prod.fst)) ↔
      ∀ s k, 0 < count s k (file.lines.map Prod.fst) →
        ∀ r ∈ (targeting s k replacements).drop (firstCount s k none (file.lines.map Prod.fst)), r.text none = none := by
  refine forall_congr' fun s => forall_congr' fun k => forall_congr' fun h => ?_
  rw [count_written hclean h, Nat.add_eq_left, countP_eq_zero]
  simp only [Bool.not_eq_true, Option.isSome_eq_false_iff, Option.isNone_iff_eq_none]

end Pass

/-! ## A reader -/

/-- The lines of a text, with what has been read of the first. -/
def splitLines (line : Text) : Text → List Text
  | [] => [line]
  | c :: rest => if c = '\n' ∨ c = '\r' then line :: splitLines [] rest else splitLines (line ++ [c]) rest

/-- A line without blanks around its parts. -/
def readLine : Text → Line
  | [] => .other
  | c :: rest =>
    if c = ';' ∨ c = '#' then .other
    else if c = '[' then if rest.getLast? = some ']' then .section rest.dropLast else .other
    else .property ((c :: rest).takeWhile (· != '=')) ((c :: rest).dropWhile (· != '=')).tail?

theorem splitLines_ne_nil (line text : Text) : splitLines line text ≠ [] := by
  induction text generalizing line with
  | nil => exact cons_ne_nil _ _
  | cons c rest ih =>
    rw [splitLines]
    split_ifs
    · exact cons_ne_nil _ _
    · exact ih _

theorem splitLines_eq_singleton {line text l : Text} (h : splitLines line text = [l]) :
    l = line ++ text ∧ OneLine text := by
  induction text generalizing line with
  | nil => exact ⟨by rw [append_nil]; exact (singleton_inj.mp h).symm, by decide, by decide⟩
  | cons c rest ih =>
    rw [splitLines] at h
    split_ifs at h with hc
    · exact absurd (cons.inj h).2 (splitLines_ne_nil [] rest)
    · obtain ⟨hl, hone⟩ := ih h
      rw [not_or] at hc
      rw [append_assoc] at hl
      refine ⟨hl, ?_, ?_⟩
      · exact not_mem_cons_of_ne_of_not_mem (Ne.symm hc.1) hone.1
      · exact not_mem_cons_of_ne_of_not_mem (Ne.symm hc.2) hone.2

theorem splitLines_of_oneLine {text : Text} (h : OneLine text) (line : Text) : splitLines line text = [line ++ text] := by
  induction text generalizing line with
  | nil => rw [splitLines, append_nil]
  | cons c rest ih =>
    obtain ⟨hnl, hcr⟩ := h
    rw [mem_cons, not_or] at hnl hcr
    rw [splitLines, if_neg (not_or.mpr ⟨Ne.symm hnl.1, Ne.symm hcr.1⟩), ih ⟨hnl.2, hcr.2⟩, append_assoc,
      singleton_append]

theorem readLine_eq_property {raw key : Text} {val : Option Text} (h : readLine raw = .property key val) :
    key = raw.takeWhile (· != '=') ∧ val = (raw.dropWhile (· != '=')).tail? ∧
      ∀ rest, readLine (key ++ '=' :: rest) = .property key (some rest) := by
  cases raw with
  | nil => exact absurd h nofun
  | cons c raw =>
    rw [readLine] at h
    split_ifs at h with hcomment hbracket
    obtain ⟨rfl, rfl⟩ := Line.property.inj h
    refine ⟨rfl, rfl, fun rest => ?_⟩
    have hall : ∀ d ∈ (c :: raw).takeWhile (· != '='), (d != '=') = true :=
      fun d hd => mem_takeWhile_imp (p := (· != '=')) hd
    have hhead : ∃ d text, (c :: raw).takeWhile (· != '=') ++ '=' :: rest = d :: text ∧ ¬ (d = ';' ∨ d = '#') ∧
        d ≠ '[' := by
      by_cases hc : (c != '=') = true
      · rw [takeWhile_cons_of_pos (p := (· != '=')) hc]
        exact ⟨c, _, rfl, hcomment, hbracket⟩
      · rw [takeWhile_cons_of_neg (p := (· != '=')) hc]
        exact ⟨'=', rest, rfl, by decide, by decide⟩
    obtain ⟨d, text, htext, hd, hd'⟩ := hhead
    have hread : readLine (d :: text) = .property ((d :: text).takeWhile (· != '='))
        ((d :: text).dropWhile (· != '=')).tail? := by
      rw [readLine, if_neg hd, if_neg hd']
    rw [htext, hread, ← htext, takeWhile_append_of_pos hall, dropWhile_append_of_pos hall]
    have htake : ('=' :: rest).takeWhile (· != '=') = [] := rfl
    rw [htake, append_nil]
    rfl

theorem oneLine_append {a b : Text} (ha : OneLine a) (hb : OneLine b) : OneLine (a ++ b) :=
  ⟨fun h => (mem_append.mp h).elim ha.1 hb.1, fun h => (mem_append.mp h).elim ha.2 hb.2⟩

theorem of_read_eq_singleton {raw : Text} {line : Line} (h : (splitLines [] raw).map readLine = [line]) :
    readLine raw = line ∧ OneLine raw := by
  obtain ⟨l, hl, hline⟩ := map_eq_singleton_iff.mp h
  obtain ⟨hraw, hone⟩ := splitLines_eq_singleton hl
  rw [nil_append] at hraw
  exact ⟨hraw ▸ hline, hone⟩

theorem read_of_oneLine {raw : Text} (h : OneLine raw) : (splitLines [] raw).map readLine = [readLine raw] := by
  rw [splitLines_of_oneLine h, nil_append, map_singleton]

theorem read_insert {raw key text : Text} {val : Option Text}
    (h : (splitLines [] raw).map readLine = [.property key val]) (htext : OneLine text) :
    (splitLines [] (key ++ '=' :: text)).map readLine = [.property key (some text)] := by
  obtain ⟨hline, hone⟩ := of_read_eq_singleton h
  obtain ⟨hkey, -, hread⟩ := readLine_eq_property hline
  have hkeyLine : OneLine key := oneLine_of_subset (fun d hd => (List.takeWhile_prefix _).mem (hkey ▸ hd)) hone
  have hall : OneLine (key ++ '=' :: text) :=
    oneLine_append hkeyLine (oneLine_append (a := ['=']) ⟨by decide, by decide⟩ htext)
  rw [read_of_oneLine hall, hread]

/-- A reader of files without blanks around names, keys and signs. -/
def plainReader : Reader where
  read text := (splitLines [] text).map readLine
  blank := rfl
  header := by
    intro raw name h
    obtain ⟨hline, hone⟩ := of_read_eq_singleton h
    cases raw with
    | nil => exact absurd hline nofun
    | cons c raw =>
      rw [readLine] at hline
      split_ifs at hline with hcomment hbracket hlast
      have hname : name = raw.dropLast := (Line.section.inj hline).symm
      have hraw : OneLine name := oneLine_of_subset
        (fun d hd => List.mem_cons_of_mem c (List.dropLast_subset raw (hname ▸ hd))) hone
      have htext : OneLine ('[' :: (name ++ [']'])) :=
        oneLine_append (a := ['[']) ⟨by decide, by decide⟩ (oneLine_append hraw ⟨by decide, by decide⟩)
      rw [read_of_oneLine htext, readLine, if_neg (by decide), if_pos rfl,
        if_pos List.getLast?_concat, List.dropLast_concat]
  insert h hvalue := ⟨_, read_insert h hvalue⟩
  rewrite := by
    intro raw key val value h _ hvalue
    obtain ⟨hline, hone⟩ := of_read_eq_singleton h
    unfold rewriteProperty
    cases hdrop : raw.dropWhile (· != '=') with
    | nil => exact ⟨_, read_insert h hvalue⟩
    | cons c after =>
      have hblanks : OneLine (after.takeWhile isWhitespace) := by
        refine oneLine_of_subset (fun d hd => ?_) hone
        have hafter : d ∈ c :: after := List.mem_cons_of_mem c ((List.takeWhile_prefix _).mem hd)
        exact (List.dropWhile_suffix (· != '=')).mem (hdrop ▸ hafter)
      rw [← (readLine_eq_property hline).1]
      exact ⟨_, read_insert h (oneLine_append hblanks hvalue)⟩
  value := by
    intro raw key val h
    obtain ⟨hline, hone⟩ := of_read_eq_singleton h
    obtain ⟨-, hval, -⟩ := readLine_eq_property hline
    refine oneLine_of_subset (fun d hd => ?_) hone
    cases hdrop : raw.dropWhile (· != '=') with
    | nil => rw [hdrop] at hval; exact absurd hval nofun
    | cons c rest =>
      rw [hdrop] at hval
      obtain rfl : val = rest := Option.some.inj hval
      exact (List.dropWhile_suffix (· != '=')).mem (hdrop ▸ List.mem_cons_of_mem c hd)

/-- A replacement that always writes its value. -/
def always (path value : Text) : ResolvedReplacement :=
  { match_ := path, value, insertNew := true, updateExisting := true, ifValue := none }

def fileOf (raws : List Text) (h : ∀ raw ∈ raws, plainReader.read raw = [readLine raw]) : IniFile plainReader where
  lines := raws.map fun raw => (readLine raw, raw)
  faithful := by
    intro l hl
    obtain ⟨raw, hraw, rfl⟩ := List.mem_map.mp hl
    exact h raw hraw

theorem clean_always_s_k : Clean plainReader (always ['s', '.', 'k'] ['2']) := by
  refine ⟨⟨some [], by decide⟩, fun name hname => ⟨['[', 's', ']'], ?_⟩, fun v hv => ?_, fun e v _ hv => ?_⟩
  · rw [show name = ['s'] from (Option.some.inj hname).symm]
    decide
  all_goals
    rw [show v = ['2'] from (Option.some.inj hv).symm]
    exact ⟨by decide, by decide⟩

/-- A file with the key in the only part of its section. -/
theorem keys_not_duplicated_one_section :
    let file := fileOf [['[', 's', ']'], ['k', '=', '1']] (by decide)
    ∀ s k, 0 < count s k (file.lines.map Prod.fst) →
      count s k ((written [always ['s', '.', 'k'] ['2']] file.lines).flatMap plainReader.read) =
        count s k (file.lines.map Prod.fst) := by
  intro file
  refine (keys_not_duplicated_iff file (forall_mem_singleton.mpr clean_always_s_k)).mpr fun s k h r hr => ?_
  -- the line uses up the only replacement
  have hlines : file.lines.map Prod.fst = [.section ['s'], .property ['k'] (some ['1'])] := by decide
  have hcount : firstCount s k none (file.lines.map Prod.fst) = count s k (file.lines.map Prod.fst) := by
    rw [hlines] at h ⊢
    have hs : none ≠ s := fun hs => by
      rw [count, countFrom, countFrom, if_neg fun heq => by rw [← hs] at heq; exact absurd heq.1 nofun] at h
      exact absurd h (Nat.lt_irrefl 0)
    rw [firstCount, if_neg hs]
    rfl
  have hle : (targeting s k [always ['s', '.', 'k'] ['2']]).length ≤ firstCount s k none (file.lines.map Prod.fst) :=
    (length_filter_le _ _).trans (hcount ▸ h)
  rw [drop_eq_nil_of_le hle] at hr
  exact absurd hr not_mem_nil

/-- **A key is inserted into the first part of a repeated section**, although a later part has it. -/
theorem key_duplicated :
    let file := fileOf [['[', 's', ']'], ['[', 's', ']'], ['k', '=', '1']] (by decide)
    Clean plainReader (always ['s', '.', 'k'] ['2']) ∧
      written [always ['s', '.', 'k'] ['2']] file.lines =
        [['[', 's', ']'], ['k', '=', '2'], ['[', 's', ']'], ['k', '=', '1']] ∧
      count (some ['s']) ['k'] (file.lines.map Prod.fst) = 1 ∧
      count (some ['s']) ['k'] ((written [always ['s', '.', 'k'] ['2']] file.lines).flatMap plainReader.read) = 2 :=
  ⟨clean_always_s_k, by decide, by decide, by decide⟩

end Wings.Configuration.Ini
