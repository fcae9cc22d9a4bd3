import Wings.Configuration.PropertiesRead

/-!
# Wings.Configuration.PropertiesKeys — the keys of a rewritten properties file

Comments and unreadable lines are written as they were read, but for a carriage return that `lines` drops; they are
no pairs when they are read again (`not_pair_of_block`).

* **`keys_kept`**
-/

namespace Wings.Configuration.Properties

open Lib List Option

/-! ## A line without its last character -/

variable {text : Text} {item : PropertyLine} {logical raw : Text} {x : Char}

theorem unescape_concat {output : Text} (h : unescape text = some output) (hx : x ≠ 'u') :
    ∃ output', unescape (text ++ [x]) = some output' := by
  induction text using unescape.induct generalizing output with
  | case1 =>
    by_cases hc : x = '\\'
    · exact ⟨['\\'], by rw [hc]; rfl⟩
    · exact ⟨[x], by rw [nil_append, unescape_cons hc]; rfl⟩
  | case2 a b c d rest ih =>
    rw [unescape_unicode] at h
    obtain ⟨u, hu, hrest⟩ := bind_eq_some_iff.mp h
    obtain ⟨output₁, houtput, -⟩ := map_eq_some_iff.mp hrest
    obtain ⟨output', houtput'⟩ := ih houtput
    refine ⟨u :: output', ?_⟩
    show unescape ('\\' :: 'u' :: a :: b :: c :: d :: (rest ++ [x])) = _
    rw [unescape_unicode, hu, houtput']
    rfl
  | case3 rest hshort =>
    rw [unescape] at h
    · cases h
    · exact hshort
  | case4 => exact ⟨[unescapeChar x], by rw [singleton_append, unescape_escape hx]; rfl⟩
  | case5 c rest _ hc ih =>
    rw [unescape_escape hc] at h
    obtain ⟨output₁, houtput, -⟩ := map_eq_some_iff.mp h
    obtain ⟨output', houtput'⟩ := ih houtput
    exact ⟨unescapeChar c :: output', by
      rw [cons_append, cons_append, unescape_escape hc, houtput']; rfl⟩
  | case6 c rest _ _ hnil hcons ih =>
    have hc : c ≠ '\\' := fun hc => by
      cases rest with
      | nil => exact hnil hc rfl
      | cons d rest => exact hcons d rest hc rfl
    rw [unescape_cons hc] at h
    obtain ⟨output₁, houtput, -⟩ := map_eq_some_iff.mp h
    obtain ⟨output', houtput'⟩ := ih houtput
    exact ⟨c :: output', by rw [cons_append, unescape_cons hc, houtput']; rfl⟩

theorem splitKey_cons {c : Char} (hc : c ≠ '\\') (text : Text) :
    splitKey (c :: text) =
      if isSeparator c then ([], c :: text) else (c :: (splitKey text).1, (splitKey text).2) := by
  rw [splitKey]
  all_goals simp_all

/-- A character behind the line goes to what follows the key, or to the key if nothing did. -/
theorem splitKey_concat (text : Text) (x : Char) :
    splitKey (text ++ [x]) = ((splitKey text).1, (splitKey text).2 ++ [x]) ∨
      (splitKey text).2 = [] ∧ splitKey (text ++ [x]) = ((splitKey text).1 ++ [x], []) := by
  induction text using splitKey.induct with
  | case1 =>
    by_cases hc : x = '\\'
    · exact .inr ⟨rfl, by rw [hc]; rfl⟩
    · rw [nil_append, splitKey_cons hc]
      by_cases hsep : isSeparator x = true
      · exact .inl (if_pos hsep)
      · exact .inr ⟨rfl, if_neg hsep⟩
  | case2 => exact .inr ⟨rfl, rfl⟩
  | case3 c rest ih =>
    have hstep : ∀ text, splitKey ('\\' :: c :: text) = ('\\' :: c :: (splitKey text).1, (splitKey text).2) := fun _ => rfl
    rw [cons_append, cons_append, hstep, hstep]
    rcases ih with ih | ⟨hnil, ih⟩
    · exact .inl (by rw [ih])
    · exact .inr ⟨hnil, by rw [ih]; rfl⟩
  | case4 c rest hnil hcons hsep =>
    have hc : c ≠ '\\' := by rintro rfl; exact absurd hsep (by decide)
    rw [cons_append, splitKey_cons hc, splitKey_cons hc, if_pos hsep, if_pos hsep]
    exact .inl rfl
  | case5 c rest hnil hcons hsep ih =>
    have hc : c ≠ '\\' := fun hc => by
      cases rest with
      | nil => exact hnil hc rfl
      | cons d rest => exact hcons d rest hc rfl
    rw [cons_append, splitKey_cons hc, splitKey_cons hc, if_neg hsep, if_neg hsep]
    rcases ih with ih | ⟨hnil, ih⟩
    · exact .inl (by rw [ih])
    · exact .inr ⟨hnil, by rw [ih]; rfl⟩

theorem leadingBlanks_concat (text : Text) (x : Char) :
    leadingBlanks (text ++ [x]) = leadingBlanks text ∨ ∀ c ∈ text, isWhitespace c = true := by
  unfold leadingBlanks
  by_cases h : ∀ c ∈ text, isWhitespace c = true
  · exact .inr h
  · left
    rw [takeWhile_append, if_neg]
    intro hlength
    exact h (takeWhile_eq_self_iff.mp ((List.takeWhile_prefix _).eq_of_length hlength))

theorem separatorRest_concat (text : Text) (x : Char) :
    separatorRest (text ++ [x]) = separatorRest text ∨ ∀ c ∈ text, isSeparator c = true := by
  have hblank : ∀ {c}, isWhitespace c = true → isSeparator c = true := fun hc => by rw [isSeparator, hc, Bool.or_true]
  induction text with
  | nil => exact .inr (forall_mem_nil _)
  | cons c text ih =>
    rw [cons_append, separatorRest, separatorRest, forall_mem_cons]
    by_cases hstrict : c = '=' ∨ c = ':'
    · rw [if_pos hstrict, if_pos hstrict]
      refine (leadingBlanks_concat text x).imp (fun h => by rw [h]) fun h => ⟨?_, fun d hd => hblank (h d hd)⟩
      rcases hstrict with rfl | rfl <;> decide
    · rw [if_neg hstrict, if_neg hstrict]
      by_cases hc : isWhitespace c = true
      · exact ih.imp (fun h => by rw [h]) fun h => ⟨hblank hc, h⟩
      · rw [if_neg hc, if_neg hc]
        exact .inl rfl

theorem suffix_of_getFrom {n : ℕ} {rest : Text} (h : getFrom n text = some rest) : rest <:+ text := by
  induction text generalizing n with
  | nil =>
    rw [getFrom] at h
    split_ifs at h
    cases h
    exact suffix_rfl
  | cons c text ih =>
    rw [getFrom] at h
    split_ifs at h
    · cases h
      exact suffix_rfl
    · exact (ih h).trans (suffix_cons c text)

theorem getFrom_concat {n : ℕ} (hn : n ≤ text.length) (x : Char) :
    getFrom n (text ++ [x]) = (getFrom n text).map (· ++ [x]) := by
  induction text generalizing n with
  | nil => rw [Nat.le_zero.mp hn]; rfl
  | cons c text ih =>
    rw [cons_append, getFrom, getFrom]
    by_cases hzero : n = 0
    · rw [if_pos hzero, if_pos hzero]
      rfl
    · rw [if_neg hzero, if_neg hzero]
      by_cases hsize : c.utf8Size ≤ n
      · have hpos := c.utf8Size_pos
        rw [length_cons] at hn
        rw [if_pos hsize, if_pos hsize, ih (by omega)]
      · rw [if_neg hsize, if_neg hsize]
        rfl

theorem separatorRest_le (text : Text) : separatorRest text ≤ text.length := by
  induction text with
  | nil => exact Nat.le_refl 0
  | cons c text ih =>
    have hblanks : leadingBlanks text ≤ text.length := (List.takeWhile_prefix _).length_le
    rw [separatorRest, length_cons]
    split_ifs <;> omega

theorem unescape_valueText_concat {rest output : Text} (h : unescape (valueText rest) = some output)
    (hx : x ≠ 'u') : ∃ output', unescape (valueText (rest ++ [x])) = some output' := by
  cases rest with
  | nil =>
    refine ⟨[], ?_⟩
    have hnone : getFrom 1 [x] = some [] ∨ getFrom 1 [x] = none := by
      have hpos := x.utf8Size_pos
      rw [getFrom, if_neg Nat.one_ne_zero]
      split_ifs with hsize
      · left
        rw [Nat.sub_eq_zero_of_le hpos]
        rfl
      · exact .inr rfl
    have hlength : separatorLength [x] = 1 := by
      rw [separatorLength]
      split_ifs <;> rfl
    rw [nil_append, valueText, hlength]
    rcases hnone with hnone | hnone <;> rw [hnone] <;> rfl
  | cons c rest =>
    have hlength : separatorLength (c :: rest ++ [x]) = separatorLength (c :: rest) ∨
        ∀ d ∈ rest, isSeparator d = true := by
      rw [cons_append, separatorLength, separatorLength]
      by_cases hc : isWhitespace c = true
      · rw [if_pos hc, if_pos hc]
        exact (separatorRest_concat rest x).imp_left fun h => by rw [h]
      · rw [if_neg hc, if_neg hc]
        refine (leadingBlanks_concat rest x).imp (fun h => by rw [h]) fun h d hd => ?_
        rw [isSeparator, h d hd, Bool.or_true]
    rcases hlength with hlength | hall
    · have hle : separatorLength (c :: rest) ≤ (c :: rest).length := by
        have hblanks : leadingBlanks rest ≤ rest.length := (List.takeWhile_prefix _).length_le
        have hrest := separatorRest_le rest
        rw [separatorLength, length_cons]
        split_ifs <;> omega
      rw [valueText] at h ⊢
      rw [hlength, getFrom_concat hle]
      cases hget : getFrom (separatorLength (c :: rest)) (c :: rest) with
      | none => exact ⟨[], rfl⟩
      | some text =>
        rw [hget] at h
        exact unescape_concat h hx
    · -- the value is the end of a text of separators and `x`
      have hvalue : valueText (c :: rest ++ [x]) <:+ rest ++ [x] := by
        have hget : ∀ n, (getFrom n (rest ++ [x])).getD [] <:+ rest ++ [x] := fun n => by
          cases hget : getFrom n (rest ++ [x]) with
          | none => exact nil_suffix
          | some text => exact suffix_of_getFrom hget
        rw [cons_append, valueText, separatorLength, getFrom, if_neg (by omega)]
        split_ifs
        all_goals first
          | exact hget _
          | exact nil_suffix
      rcases suffix_concat_iff.mp hvalue with hnil | ⟨text, htext, hsuffix⟩
      · exact ⟨[], by rw [hnil]; rfl⟩
      · have hmem : '\\' ∉ text := fun hmem => absurd (hall _ (hsuffix.mem hmem)) (by decide)
        rw [htext]
        exact unescape_concat (unescape_of_not_mem hmem) hx

theorem pairOf_concat {p : Text × Text} (h : pairOf text = some p) (hx : x ≠ 'u') :
    pairOf (text ++ [x]) ≠ none := by
  obtain ⟨key, hkey, h⟩ := bind_eq_some_iff.mp h
  obtain ⟨value, hvalue, -⟩ := map_eq_some_iff.mp h
  rw [pairOf]
  rcases splitKey_concat text x with hsplit | ⟨hnil, hsplit⟩
  · obtain ⟨value', hvalue'⟩ := unescape_valueText_concat hvalue hx
    rw [hsplit, hkey, hvalue']
    exact some_ne_none _
  · obtain ⟨key', hkey'⟩ := unescape_concat hkey hx
    rw [hsplit, hkey']
    exact some_ne_none _

/-! ## Items that are no pairs -/

theorem trimStart_concat {c : Char} {rest : Text} (h : trimStart text = c :: rest) (x : Char) :
    trimStart (text ++ [x]) = c :: (rest ++ [x]) := by
  have hnonempty : text.dropWhile isWhitespace ≠ [] := by
    rw [← trimStart, h]
    exact cons_ne_nil _ _
  rw [trimStart, dropWhile_append, if_neg (by simpa using hnonempty), ← trimStart, h, cons_append]

theorem key_classify_of_concat {raw raw' : Text} (hx : x ≠ 'u')
    (h : (classify (text ++ [x]) raw).key? = none) : (classify text raw').key? = none := by
  unfold classify at h ⊢
  cases htrim : trimStart text with
  | nil => rfl
  | cons c rest =>
    rw [trimStart_concat htrim] at h
    dsimp only at h ⊢
    by_cases hcomment : c = '#' ∨ c = '!'
    · rw [if_pos hcomment]
      rfl
    · rw [if_neg hcomment] at h ⊢
      cases hpair : pairOf (c :: rest) with
      | none => rfl
      | some p =>
        have hsome := pairOf_concat hpair hx
        rw [cons_append] at hsome
        obtain ⟨p', hp'⟩ := ne_none_iff_exists'.mp hsome
        rw [hp'] at h
        exact absurd h nofun

theorem key_classify_eq (logical raw raw' : Text) : (classify logical raw).key? = (classify logical raw').key? := by
  unfold classify
  cases trimStart logical with
  | nil => rfl
  | cons c rest =>
    dsimp only
    by_cases hcomment : c = '#' ∨ c = '!'
    · rw [if_pos hcomment, if_pos hcomment]
      rfl
    · rw [if_neg hcomment, if_neg hcomment]
      cases pairOf (c :: rest) <;> rfl

/-- A logical line with the text that it has been joined from. -/
inductive Block : Text → Text → Prop
  | first {line} : '\n' ∉ line → Block line line
  | next {logical raw line} : Block logical raw → isContinuation logical = true → '\n' ∉ line →
      Block (logical.dropLast ++ trimStart line) (raw ++ '\n' :: line)

/-- A logical line as it ends the file. -/
def ended (logical : Text) : Text := if isContinuation logical then logical.dropLast else logical

theorem block_of_mem_parseFrom (hblock : Block logical raw) {rest : List Text}
    (hrest : ∀ line ∈ rest, '\n' ∉ line) (h : item ∈ parseFrom logical raw rest) :
    ∃ logical raw, Block logical raw ∧ item = classify (ended logical) raw := by
  induction rest generalizing logical raw with
  | nil => exact ⟨logical, raw, hblock, mem_singleton.mp h⟩
  | cons next rest ih =>
    rw [forall_mem_cons] at hrest
    rw [parseFrom] at h
    by_cases hlogical : isContinuation logical = true
    · rw [if_pos hlogical] at h
      exact ih (.next hblock hlogical hrest.1) hrest.2 h
    · rw [if_neg hlogical] at h
      rcases mem_cons.mp h with rfl | h
      · exact ⟨logical, raw, hblock, by rw [ended, if_neg hlogical]⟩
      · exact ih (.first hrest.1) hrest.2 h

theorem not_mem_readLines {line : Text} (hline : '\n' ∉ line) : ∀ l ∈ readLines line text, '\n' ∉ l := by
  have hcr : ∀ {line : Text}, '\n' ∉ line → '\n' ∉ dropCr line := fun {line} hline hmem => by
    unfold dropCr at hmem
    split_ifs at hmem
    · exact hline (dropLast_subset line hmem)
    · exact hline hmem
  induction text generalizing line with
  | nil =>
    rw [readLines]
    split_ifs
    · exact forall_mem_nil _
    · rintro l hl
      rwa [mem_singleton.mp hl]
  | cons c text ih =>
    rw [readLines]
    split_ifs with hc
    · rw [forall_mem_cons]
      exact ⟨hcr hline, ih not_mem_nil⟩
    · refine ih ?_
      rw [mem_append, mem_singleton, not_or]
      exact ⟨hline, Ne.symm hc⟩

theorem block_of_mem_parse {content : Text} (h : item ∈ parse content) :
    ∃ logical raw, Block logical raw ∧ item = classify (ended logical) raw := by
  have hlines : ∀ l ∈ lines content, '\n' ∉ l := not_mem_readLines not_mem_nil
  unfold parse at h
  cases hcontent : lines content with
  | nil => rw [hcontent] at h; exact absurd h not_mem_nil
  | cons line rest =>
    rw [hcontent] at h hlines
    rw [forall_mem_cons] at hlines
    exact block_of_mem_parseFrom (.first hlines.1) hlines.2 h

/-- The text of a logical line is joined again, but for a carriage return at its end. -/
theorem Block.joined (h : Block logical raw) (rest : List Text) :
    ∃ logical' raw', parseLines (lines (raw ++ ['\n']) ++ rest) = parseFrom logical' raw' rest ∧
      (logical' = logical ∨ logical = logical' ++ ['\r']) := by
  have hcr : ∀ line : Text, dropCr line = line ∨ line = dropCr line ++ ['\r'] := fun line => by
    unfold dropCr
    split_ifs with hlast
    · obtain ⟨text, rfl⟩ := getLast?_eq_some_iff.mp hlast
      exact .inr (by rw [dropLast_concat])
    · exact .inl rfl
  induction h generalizing rest with
  | @first line hline => exact ⟨dropCr line, dropCr line, by rw [lines_of_not_mem hline]; rfl, hcr line⟩
  | @next logical raw line _ hlogical hline ih =>
    obtain ⟨logical', raw', hparse, hor⟩ := ih (dropCr line :: rest)
    have hsame : logical' = logical := hor.resolve_right fun heq => by
      rw [heq, isContinuation_append_cons (by decide)] at hlogical
      exact absurd hlogical (by decide)
    subst hsame
    refine ⟨logical'.dropLast ++ trimStart (dropCr line), raw' ++ '\n' :: dropCr line, ?_, ?_⟩
    · rw [append_assoc, cons_append, lines_append, lines_of_not_mem hline, append_assoc,
        singleton_append, hparse, parseFrom, if_pos hlogical]
    · rcases hcr line with heq | heq
      · exact .inl (by rw [heq])
      · have hdrop : trimStart line = if trimStart (dropCr line) = [] then [] else trimStart (dropCr line) ++ ['\r'] := by
          nth_rewrite 1 [heq]
          rw [trimStart, dropWhile_append]
          simp only [List.isEmpty_iff]
          rfl
        by_cases hempty : trimStart (dropCr line) = []
        · exact .inl (by rw [hdrop, if_pos hempty, hempty])
        · exact .inr (by rw [hdrop, if_neg hempty, append_assoc])

/-- **An item that is no pair is none when it is read again.** -/
theorem not_pair_of_block (h : Block logical raw)
    (hkey : (classify (ended logical) raw).key? = none) : keys (parse (raw ++ ['\n'])) = [] := by
  obtain ⟨logical', raw', hparse, hor⟩ := h.joined []
  have hitem : (classify (ended logical') raw').key? = none := by
    rcases hor with rfl | heq
    · rw [key_classify_eq _ raw' raw]
      exact hkey
    · have hclosed : isContinuation logical = false := by
        rw [heq, isContinuation_append_cons (by decide)]
        rfl
      rw [ended, if_neg (Bool.eq_false_iff.mp hclosed), heq] at hkey
      have hline : (classify logical' raw').key? = none := key_classify_of_concat (by decide) hkey
      unfold ended
      split_ifs with hcontinued
      · obtain ⟨text, rfl, -⟩ := of_isContinuation hcontinued
        rw [dropLast_concat]
        exact key_classify_of_concat (by decide) hline
      · exact hline
  rw [append_nil] at hparse
  rw [parse, hparse, parseFrom, ← ended, keys, filterMap_cons_none hitem]
  rfl

/-! ## The keys of the new file -/

theorem keys_parse_render {content : Text} (hitem : item ∈ parse content)
    (hplain : ∀ key, item.key? = some key → PlainKey key) : keys (parse (render item)) = item.key?.toList := by
  obtain ⟨logical, raw, hblock, heq⟩ := block_of_mem_parse hitem
  have hraw : ∀ text, item = .comment text ∨ item = .raw text → text = raw := by
    intro text htext
    rw [heq, classify] at htext
    cases htrim : trimStart (ended logical) with
    | nil => rw [htrim] at htext; rcases htext with h | h <;> cases h
    | cons c rest =>
      rw [htrim] at htext
      dsimp only at htext
      split_ifs at htext
      · exact htext.elim (fun h => (PropertyLine.comment.inj h).symm) fun h => by cases h
      · cases hpair : pairOf (c :: rest) with
        | none => rw [hpair] at htext; exact htext.elim (fun h => by cases h) fun h => (PropertyLine.raw.inj h).symm
        | some p => rw [hpair] at htext; rcases htext with h | h <;> cases h
  have hnone : item.key? = none → keys (parse (raw ++ ['\n'])) = [] := fun h => not_pair_of_block hblock (heq ▸ h)
  cases item with
  | pair key value => rw [parse_pair (hplain key rfl)]; rfl
  | comment text => rw [render, hraw text (.inl rfl), hnone rfl]; rfl
  | blank => rfl
  | raw text => rw [render, hraw text (.inr rfl), hnone rfl]; rfl

theorem keys_parse_flatMap {items : List PropertyLine} (hopen : ∀ item ∈ items.dropLast, item.isOpen = false)
    (hitems : ∀ item ∈ items, keys (parse (render item)) = item.key?.toList) :
    keys (parse (items.flatMap render)) = keys items := by
  induction items with
  | nil => rfl
  | cons item items ih =>
    rw [forall_mem_cons] at hitems
    have hcons : keys (item :: items) = item.key?.toList ++ keys items := by
      rw [keys, filterMap_cons]
      cases item.key? <;> rfl
    cases items with
    | nil => rw [flatMap_singleton, hitems.1, hcons, keys, filterMap_nil, append_nil]
    | cons next items =>
      rw [dropLast_cons_cons, forall_mem_cons] at hopen
      have hclosed : ∀ last, [item].getLast? = some last → last.isOpen = false := by
        rintro last ⟨⟩
        exact hopen.1
      have hsplit := parse_append_of_closed hclosed (next :: items)
      rw [flatMap_singleton, singleton_append] at hsplit
      rw [hsplit, keys, filterMap_append, ← keys, ← keys, hitems.1, ih hopen.2 hitems.2, hcons]

/-- **The keys are kept**, if each of them is plain and no comment or unreadable line but the last is open. -/
theorem keys_kept {content : Text} (hplain : ∀ key ∈ keys (parse content), PlainKey key)
    (hopen : ∀ item ∈ (parse content).dropLast, item.isOpen = false) :
    keys (parse (processFile [] content)) = keys (parse content) := by
  rw [processFile_nil]
  refine keys_parse_flatMap hopen fun item hitem => keys_parse_render hitem fun key hkey => ?_
  exact hplain key (mem_filterMap.mpr ⟨item, hitem, hkey⟩)

/-- A file with a comment and a pair. -/
theorem keys_kept_one_pair : keys (parse (processFile [] ['#', 'x', '\n', 'a', ' ', 'b'])) = [['a']] := by
  have hkeys : keys (parse ['#', 'x', '\n', 'a', ' ', 'b']) = [['a']] := by decide
  refine (keys_kept ?_ (by decide)).trans hkeys
  rw [hkeys, forall_mem_singleton]
  exact ⟨forall_mem_singleton.mpr (by decide), by decide, by decide⟩

/-- Keys that are not plain may be kept by accident: here the second pair, whose key has a line feed in it, is read
as two pairs, of which the first makes up for the key that has become a comment. -/
example :
    let content : Text := "\\#x=0\n\\\\#x\\=1\\n\\\\\\\\#x\\\\=1\\n\\\\\\\\#x\\\\".toList
    keys (parse (processFile [] content)) = keys (parse content) ∧ ['#', 'x'] ∈ keys (parse content) := by decide +kernel

/-- **A key with an escaped separator is cut there**: it is written without the backslash. -/
theorem escaped_key_cut :
    keys (parse ['a', '\\', ':', 'b', '=', '1']) = [['a', ':', 'b']] ∧
      keys (parse (processFile [] ['a', '\\', ':', 'b', '=', '1'])) = [['a']] := by decide

end Wings.Configuration.Properties
