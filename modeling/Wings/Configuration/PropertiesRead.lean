import Wings.Configuration.Properties

/-!
# Wings.Configuration.PropertiesRead — reading a properties file that has been written

The written file is read line by line again, unless a comment or an unreadable line ends in a backslash there and
takes the next line with it.

* `keys_kept` — the keys are read as they were, if they are plain.
* **`reads_back_iff`**
-/

namespace Wings.Configuration.Properties

open Lib List

/-! ## Lines -/

theorem readLines_append (line a b : Text) :
    readLines line (a ++ '\n' :: b) = readLines line (a ++ ['\n']) ++ readLines [] b := by
  induction a generalizing line with
  | nil => rfl
  | cons c a ih =>
    rw [cons_append, cons_append, readLines, readLines]
    split_ifs with hc
    · rw [ih]; rfl
    · exact ih _

theorem lines_append (a b : Text) : lines (a ++ '\n' :: b) = lines (a ++ ['\n']) ++ lines b := readLines_append [] a b

variable {a : Text}

theorem readLines_of_not_mem (h : '\n' ∉ a) (line rest : Text) :
    readLines line (a ++ '\n' :: rest) = dropCr (line ++ a) :: readLines [] rest := by
  induction a generalizing line with
  | nil => rw [nil_append, append_nil, readLines, if_pos rfl]
  | cons c a ih =>
    rw [mem_cons, not_or] at h
    rw [cons_append, readLines, if_neg (Ne.symm h.1), ih h.2, append_assoc, singleton_append]

theorem lines_of_not_mem (h : '\n' ∉ a) : lines (a ++ ['\n']) = [dropCr a] := readLines_of_not_mem h [] []

theorem render_eq (item : PropertyLine) : ∃ text, render item = text ++ ['\n'] := by
  cases item with
  | pair key value => exact ⟨key ++ '=' :: quoteToAscii value, by rw [append_assoc]; rfl⟩
  | comment raw => exact ⟨raw, rfl⟩
  | blank => exact ⟨[], rfl⟩
  | raw raw => exact ⟨raw, rfl⟩

variable (items : List PropertyLine)

theorem lines_flatMap_render :
    lines (items.flatMap render) = items.flatMap fun item => lines (render item) := by
  induction items with
  | nil => rfl
  | cons item items ih =>
    obtain ⟨text, htext⟩ := render_eq item
    rw [flatMap_cons, flatMap_cons, htext, append_assoc, singleton_append, lines_append, ih]

/-! ## Continuations -/

variable {c : Char} {key : Text}

theorem isContinuation_append_cons (hc : c ≠ '\\') (a b : Text) :
    isContinuation (a ++ c :: b) = isContinuation b := by
  have hstop : (c :: a.reverse).takeWhile (· == '\\') = [] := takeWhile_cons_of_neg (by simpa using hc)
  unfold isContinuation
  rw [reverse_append, reverse_cons, append_assoc, singleton_append, takeWhile_append, hstop]
  split_ifs with hall
  · rw [append_nil, hall]
  · rfl

/-- A line that is continued ends in a backslash, and is not continued without it. -/
theorem of_isContinuation {line : Text} (h : isContinuation line = true) :
    ∃ text, line = text ++ ['\\'] ∧ isContinuation text = false := by
  induction line using reverseRecOn with
  | nil => exact absurd h (by decide)
  | append_singleton text c _ =>
    by_cases hc : c = '\\'
    · subst hc
      refine ⟨text, rfl, ?_⟩
      unfold isContinuation at h ⊢
      rw [reverse_append, reverse_singleton, singleton_append, takeWhile_cons_of_pos rfl,
        length_cons, beq_iff_eq] at h
      rw [beq_eq_false_iff_ne]
      omega
    · rw [isContinuation_append_cons hc] at h
      exact absurd h (by decide)

theorem isContinuation_append (ha : isContinuation a = false) (b : Text) :
    isContinuation (a ++ b) = isContinuation b := by
  by_cases hb : ∃ c ∈ b, c ≠ '\\'
  · obtain ⟨c, hmem, hc⟩ := hb
    obtain ⟨b₁, b₂, rfl⟩ := append_of_mem hmem
    rw [← append_assoc, isContinuation_append_cons hc, isContinuation_append_cons hc]
  · -- the run of `a` is even, and goes on in `b`
    have hall : ∀ c ∈ b.reverse, (c == '\\') = true := fun c hmem => by
      by_contra hc
      exact hb ⟨c, mem_reverse.mp hmem, by simpa using hc⟩
    unfold isContinuation at ha ⊢
    rw [reverse_append, takeWhile_append_of_pos hall, length_append, takeWhile_eq_self_iff.mpr hall]
    rw [beq_eq_false_iff_ne] at ha
    rw [Bool.eq_iff_iff, beq_iff_eq, beq_iff_eq]
    omega

theorem isContinuation_next {logical : Text} (h : isContinuation logical = true) (next : Text) :
    isContinuation (logical.dropLast ++ trimStart next) = isContinuation next := by
  obtain ⟨text, rfl, htext⟩ := of_isContinuation h
  have hblanks : isContinuation (next.takeWhile isWhitespace) = false := by
    rw [← Bool.not_eq_true]
    intro hblanks
    obtain ⟨blanks, heq, -⟩ := of_isContinuation hblanks
    have hmem : '\\' ∈ next.takeWhile isWhitespace := heq ▸ mem_append_right _ mem_cons_self
    exact absurd (mem_takeWhile_imp hmem) (by decide)
  rw [dropLast_concat, isContinuation_append htext, trimStart, ← isContinuation_append hblanks,
    takeWhile_append_dropWhile]

theorem parseFrom_append {logical raw : Text} {a : List Text} (h : isContinuation (a.getLastD logical) = false)
    (b : List Text) : parseFrom logical raw (a ++ b) = parseFrom logical raw a ++ parseLines b := by
  induction a generalizing logical raw with
  | nil =>
    have hlogical : isContinuation logical = false := h
    cases b with
    | nil => rw [parseLines, append_nil, append_nil]
    | cons x b => rw [nil_append, parseFrom, parseFrom, hlogical]; rfl
  | cons next a ih =>
    rw [getLastD_cons] at h
    rw [cons_append, parseFrom, parseFrom]
    by_cases hlogical : isContinuation logical = true
    · rw [if_pos hlogical, if_pos hlogical]
      refine ih ?_
      cases a with
      | nil => rw [getLastD_nil, isContinuation_next hlogical]; exact h
      | cons y a => exact h
    · rw [if_neg hlogical, if_neg hlogical, ih h, cons_append]

/-- A line that is taken by the one before it is no item of its own. -/
theorem length_parseFrom_of_continued {logical raw : Text} {a : List Text}
    (h : isContinuation (a.getLastD logical) = true) {x : Text} (hx : isContinuation x = false) (b : List Text) :
    (parseFrom logical raw (a ++ x :: b)).length = (parseFrom logical raw a).length + (parseLines b).length := by
  induction a generalizing logical raw with
  | nil =>
    have hlogical : isContinuation logical = true := h
    have hnext : isContinuation (logical.dropLast ++ trimStart x) = false := by rw [isContinuation_next hlogical, hx]
    have hsplit := @parseFrom_append _ (raw ++ '\n' :: x) [] hnext b
    rw [nil_append] at hsplit
    have hstep : parseFrom logical raw (x :: b) =
        parseFrom (logical.dropLast ++ trimStart x) (raw ++ '\n' :: x) b := by rw [parseFrom, if_pos hlogical]
    rw [nil_append, hstep, hsplit, length_append]
    rfl
  | cons next a ih =>
    rw [getLastD_cons] at h
    rw [cons_append, parseFrom, parseFrom]
    by_cases hlogical : isContinuation logical = true
    · rw [if_pos hlogical, if_pos hlogical]
      refine ih ?_
      cases a with
      | nil => rw [getLastD_nil, isContinuation_next hlogical]; exact h
      | cons y a => exact h
    · rw [if_neg hlogical, if_neg hlogical, length_cons, length_cons, ih h]
      omega

theorem parseLines_append {a : List Text} (h : ∀ line, a.getLast? = some line → isContinuation line = false)
    (b : List Text) : parseLines (a ++ b) = parseLines a ++ parseLines b := by
  cases a with
  | nil => rfl
  | cons line a => exact parseFrom_append (h _ (by rw [getLast?_cons, getLastD_eq_getLast?])) b

/-! ## Unescaping what has been quoted -/

theorem unescape_cons (hc : c ≠ '\\') (text : Text) : unescape (c :: text) = (unescape text).map (c :: ·) := by
  rw [unescape]
  all_goals simp_all

theorem unescape_escape (hc : c ≠ 'u') (text : Text) :
    unescape ('\\' :: c :: text) = (unescape text).map (unescapeChar c :: ·) := by
  rw [unescape]
  all_goals simp_all

theorem unescape_unicode (a b c d : Char) (text : Text) :
    unescape ('\\' :: 'u' :: a :: b :: c :: d :: text) =
      ((fromStrRadix [a, b, c, d]).bind fromU32).bind fun u => (unescape text).map (u :: ·) := by
  rw [unescape]
  cases (fromStrRadix [a, b, c, d]).bind fromU32 with
  | none => rfl
  | some u => cases unescape text <;> rfl

variable {text : Text}

theorem unescape_append (h : '\\' ∉ text) (rest : Text) :
    unescape (text ++ rest) = (unescape rest).map (text ++ ·) := by
  induction text with
  | nil => exact Option.map_id'.symm
  | cons c text ih =>
    rw [mem_cons, not_or] at h
    rw [cons_append, unescape_cons (Ne.symm h.1), ih h.2, Option.map_map]
    rfl

theorem unescape_of_not_mem (h : '\\' ∉ text) : unescape text = some text := by
  have := unescape_append h []
  rwa [unescape, Option.map_some, append_nil] at this

theorem toDigit_hexDigit : ∀ {n : ℕ}, n < 16 → toDigit (hexDigit n) = some n := by decide

theorem hexDigit_ne : ∀ {n : ℕ}, n < 16 → hexDigit n ≠ '+' := by decide

theorem digits_hex {n : ℕ} (width value : ℕ) (rest : Text) (hn : n < 16 ^ width) :
    digits value (hex width n ++ rest) = digits (value * 16 ^ width + n) rest := by
  induction width generalizing n rest with
  | zero => rw [hex, nil_append, Nat.lt_one_iff.mp hn, Nat.pow_zero, Nat.mul_one, Nat.add_zero]
  | succ width ih =>
    have hdiv : n / 16 < 16 ^ width := Nat.div_lt_of_lt_mul (by omega)
    have hsum : (value * 16 ^ width + n / 16) * 16 + n % 16 = value * 16 ^ (width + 1) + n := by
      rw [Nat.pow_succ, Nat.add_mul, Nat.mul_assoc]
      omega
    rw [hex, append_assoc, ih _ hdiv, singleton_append, digits, toDigit_hexDigit (Nat.mod_lt _ (by decide)),
      Option.bind_some, hsum]

theorem fromStrRadix_hex {n : ℕ} (hn : n < 16 ^ 4) :
    ∃ a b c d, hex 4 n = [a, b, c, d] ∧ fromStrRadix [a, b, c, d] = some n := by
  refine ⟨_, _, _, _, rfl, ?_⟩
  have hdigits := digits_hex 4 0 [] hn
  rw [Nat.zero_mul, Nat.zero_add, digits] at hdigits
  rw [← hdigits]
  have hplus := hexDigit_ne (Nat.mod_lt (n / 16 / 16 / 16) (by decide))
  unfold fromStrRadix
  split
  · rename_i h
    exact absurd h (cons_ne_nil _ _)
  · rename_i h
    exact absurd (cons.inj h).1 hplus
  · rename_i rest _ h
    exact absurd (cons.inj h).1 hplus
  · rfl

theorem fromU32_toNat (c : Char) : fromU32 c.toNat = some c := by
  rw [fromU32, if_pos (show c.toNat.isValidChar from c.valid), Char.ofNat_toNat]

/-- The characters that are neither blanks nor a backslash. -/
def Graphic (c : Char) : Prop := '!' ≤ c ∧ c ≤ '~' ∧ c ≠ '\\'

instance (c : Char) : Decidable (Graphic c) := inferInstanceAs (Decidable (_ ∧ _))

theorem graphic_hexDigit : ∀ {n : ℕ}, n < 16 → Graphic (hexDigit n) := by decide

theorem graphic_hex (width n : ℕ) : ∀ d ∈ hex width n, Graphic d := by
  induction width generalizing n with
  | zero => exact nofun
  | succ width ih =>
    rw [hex, forall_mem_append, forall_mem_singleton]
    exact ⟨ih _, graphic_hexDigit (Nat.mod_lt n (by decide))⟩

theorem not_mem_hex (width n : ℕ) : '\\' ∉ hex width n := fun h => (graphic_hex width n _ h).2.2 rfl

/-- How a character is written: as it is, or behind a backslash. -/
inductive Quoted (c : Char) : Text → Prop
  | plain : ' ' ≤ c ∧ c ≤ '~' → c ≠ '\\' → Quoted c [c]
  | backslash : Quoted c ['\\', '\\']
  | escape {x rest} : (∀ d ∈ x :: rest, Graphic d) → Quoted c ('\\' :: x :: rest)

theorem quoted_quoteChar (c : Char) : Quoted c (quoteChar c) := by
  -- a branch of the definition, or one of those after it
  have branch : ∀ {p : Prop} [Decidable p] {a b : Text}, (p → Quoted c a) → (¬ p → Quoted c b) →
      Quoted c (if p then a else b) := by
    intro p _ a b ha hb
    by_cases hp : p
    · rw [if_pos hp]
      exact ha hp
    · rw [if_neg hp]
      exact hb hp
  refine branch (fun _ => .backslash) fun hbackslash => ?_
  iterate 8 refine branch (fun _ => .escape (forall_mem_singleton.mpr (by decide))) fun _ => ?_
  refine branch (fun hprint => .plain hprint hbackslash) fun _ => ?_
  refine branch (fun _ => .escape ?_) fun _ => branch (fun _ => .escape ?_) fun _ => .escape ?_
  all_goals
    rw [forall_mem_cons]
    exact ⟨by decide, graphic_hex _ _⟩

/-- The characters that are written so that they can be read. -/
def Kept (c : Char) : Prop :=
  c = '\n' ∨ c = '\r' ∨ c = '\t' ∨ c = '\x0C' ∨ (' ' ≤ c ∧ c ≤ '~') ∨ (128 ≤ c.toNat ∧ c.toNat < 0x10000)

instance (c : Char) : Decidable (Kept c) := inferInstanceAs (Decidable (_ ∨ _))

/-- What is read of a character: of an escape that is not known, all but the backslash. -/
def readBack (c : Char) : Text := if Kept c then [c] else (quoteChar c).tail

theorem unescape_quoteChar (c : Char) (text : Text) :
    unescape (quoteChar c ++ text) = (unescape text).map (readBack c ++ ·) := by
  by_cases hshort : c ∈ ['\\', '"', '\n', '\r', '\t', '\x08', '\x0C', '\x07', '\x0B']
  · -- the escapes of one character
    have hall : ∀ c ∈ ['\\', '"', '\n', '\r', '\t', '\x08', '\x0C', '\x07', '\x0B'],
        ∃ x, x ≠ 'u' ∧ quoteChar c = ['\\', x] ∧ readBack c = [unescapeChar x] := by
      simp only [forall_mem_cons]
      and_intros
      all_goals first | exact ⟨_, by decide, rfl, by decide⟩ | nofun
    obtain ⟨x, hx, hquote, hread⟩ := hall c hshort
    rw [hquote, hread]
    exact unescape_escape hx text
  · simp only [mem_cons, not_mem_nil, or_false, not_or] at hshort
    obtain ⟨h1, h2, h3, h4, h5, h6, h7, h8, h9⟩ := hshort
    have hquote : quoteChar c = if ' ' ≤ c ∧ c ≤ '~' then [c] else if c.toNat < 128 then '\\' :: 'x' :: hex 2 c.toNat
        else if c.toNat < 0x10000 then '\\' :: 'u' :: hex 4 c.toNat else '\\' :: 'U' :: hex 8 c.toNat := by
      rw [quoteChar, if_neg h1, if_neg h2, if_neg h3, if_neg h4, if_neg h5, if_neg h6, if_neg h7, if_neg h8, if_neg h9]
    have hkept : Kept c ↔ (' ' ≤ c ∧ c ≤ '~') ∨ (128 ≤ c.toNat ∧ c.toNat < 0x10000) := by
      unfold Kept
      simp only [h3, h4, h5, h7, false_or]
    -- an escape that is not known
    have hlost : ∀ {letter : Char} {ds : Text}, letter ≠ 'u' → unescapeChar letter = letter → '\\' ∉ ds →
        unescape ('\\' :: letter :: ds ++ text) = (unescape text).map (letter :: ds ++ ·) := by
      intro letter ds hu hletter hds
      rw [cons_append, cons_append, unescape_escape hu, unescape_append hds, hletter, Option.map_map]
      rfl
    rw [readBack, hquote]
    by_cases hprint : ' ' ≤ c ∧ c ≤ '~'
    · rw [if_pos hprint, if_pos (hkept.mpr (.inl hprint))]
      exact unescape_cons h1 text
    rw [or_iff_right hprint] at hkept
    rw [if_neg hprint]
    by_cases h128 : c.toNat < 128
    · rw [if_pos h128, if_neg (fun h => absurd (hkept.mp h).1 (Nat.not_le.mpr h128))]
      exact hlost (by decide) rfl (not_mem_hex 2 _)
    rw [if_neg h128]
    by_cases h16 : c.toNat < 0x10000
    · rw [if_pos h16, if_pos (hkept.mpr ⟨Nat.not_lt.mp h128, h16⟩)]
      obtain ⟨a, b, d, e, hhex, hradix⟩ := fromStrRadix_hex (show c.toNat < 16 ^ 4 from h16)
      rw [hhex]
      refine (unescape_unicode a b d e text).trans ?_
      rw [hradix, Option.bind_some, fromU32_toNat]
      rfl
    · rw [if_neg h16, if_neg (fun h => h16 (hkept.mp h).2)]
      exact hlost (by decide) rfl (not_mem_hex 8 _)

/-- **What is read of a quoted value.** -/
theorem unescape_quoteToAscii (v : Text) : unescape (quoteToAscii v) = some (v.flatMap readBack) := by
  induction v with
  | nil => rfl
  | cons c v ih =>
    rw [quoteToAscii, flatMap_cons, unescape_quoteChar, ← quoteToAscii, ih]
    rfl

/-- A character that is not kept is read as something that begins with a letter. -/
theorem readBack_of_not_kept (h : ¬ Kept c) : ∃ x ∈ ['a', 'b', 'v', 'x', 'U'], ∃ rest, readBack c = x :: rest := by
  have hne : c ≠ '\n' ∧ c ≠ '\r' ∧ c ≠ '\t' ∧ c ≠ '\x0C' ∧ ¬ (' ' ≤ c ∧ c ≤ '~') ∧
      ¬ (128 ≤ c.toNat ∧ c.toNat < 0x10000) := by
    simpa only [Kept, not_or] using h
  obtain ⟨h1, h2, h3, h4, h5, h6⟩ := hne
  have h7 : c ≠ '\\' := fun hc => h5 (by rw [hc]; decide)
  have h8 : c ≠ '"' := fun hc => h5 (by rw [hc]; decide)
  rw [readBack, quoteChar, if_neg h7, if_neg h8, if_neg h1, if_neg h2, if_neg h3]
  split_ifs with h9 h10 h11 h12
  · exact ⟨'b', by decide, _, rfl⟩
  · exact ⟨'a', by decide, _, rfl⟩
  · exact ⟨'v', by decide, _, rfl⟩
  · exact ⟨'x', by decide, _, rfl⟩
  · exact absurd ⟨Nat.not_lt.mp h12, ‹_›⟩ h6
  · exact ⟨'U', by decide, _, rfl⟩

theorem readBack_of_kept (h : Kept c) : readBack c = [c] := if_pos h

theorem flatMap_readBack_eq_iff {v : Text} : v.flatMap readBack = v ↔ ∀ c ∈ v, Kept c := by
  induction v with
  | nil => exact iff_of_true rfl nofun
  | cons c v ih =>
    rw [flatMap_cons, forall_mem_cons]
    by_cases hc : Kept c
    · rw [readBack_of_kept hc, singleton_append, cons.injEq, eq_self, true_and, ih, and_iff_right hc]
    · refine iff_of_false (fun h => hc ?_) fun h => hc h.1
      obtain ⟨x, hx, rest, hread⟩ := readBack_of_not_kept hc
      rw [hread] at h
      rw [← (cons.inj h).1]
      have hletters : ∀ x ∈ ['a', 'b', 'v', 'x', 'U'], Kept x := by
        simp only [forall_mem_cons]
        exact ⟨by decide, by decide, by decide, by decide, by decide, nofun⟩
      exact hletters x hx

/-! ## A line that holds a pair -/

/-- A key that ends at the sign that is written behind it, and that does not begin a comment. -/
structure PlainKey (key : Text) : Prop where
  plain : ∀ c ∈ key, isSeparator c = false ∧ c ≠ '\\'
  noHash : key.head? ≠ some '#'
  noBang : key.head? ≠ some '!'

theorem splitKey_append (h : ∀ c ∈ key, isSeparator c = false ∧ c ≠ '\\') (rest : Text) :
    splitKey (key ++ '=' :: rest) = (key, '=' :: rest) := by
  induction key with
  | nil => rfl
  | cons c key ih =>
    rw [forall_mem_cons] at h
    have hstep : splitKey (c :: (key ++ '=' :: rest)) = if isSeparator c then ([], c :: (key ++ '=' :: rest))
        else (c :: (splitKey (key ++ '=' :: rest)).1, (splitKey (key ++ '=' :: rest)).2) := by
      rw [splitKey]
      all_goals simp_all
    rw [cons_append, hstep, ih h.2, if_neg (Bool.eq_false_iff.mp h.1.1)]

theorem isWhitespace_of_printable (h : ' ' ≤ c ∧ c ≤ '~') (hc : c ≠ ' ') : isWhitespace c = false := by
  have hlo : 0x20 ≤ c.toNat := h.1
  have hhi : c.toNat ≤ 0x7E := h.2
  have hne : c.toNat ≠ 0x20 := fun heq => hc (Char.toNat_inj.mp heq)
  simp only [isWhitespace, Bool.or_eq_false_iff, Bool.and_eq_false_iff, decide_eq_false_iff_not, contains_eq_mem,
    mem_cons, not_mem_nil, or_false]
  omega

theorem leadingBlanks_quoteChar (hc : c ≠ ' ') (text : Text) : leadingBlanks (quoteChar c ++ text) = 0 := by
  have hstop : ∀ {x : Char} {rest : Text}, isWhitespace x = false → leadingBlanks (x :: rest ++ text) = 0 := fun hx => by
    rw [cons_append, leadingBlanks, takeWhile_cons_of_neg (by simp [hx])]
    rfl
  have hquoted := quoted_quoteChar c
  generalize quoteChar c = text' at hquoted ⊢
  cases hquoted with
  | plain hprint _ => exact hstop (isWhitespace_of_printable hprint hc)
  | backslash => exact hstop (by decide)
  | escape _ => exact hstop (by decide)

theorem getFrom_leadingBlanks (v : Text) :
    getFrom (leadingBlanks (quoteToAscii v)) (quoteToAscii v) = some (quoteToAscii (v.dropWhile (· == ' '))) := by
  have hzero : ∀ text, getFrom 0 text = some text := fun text => by cases text <;> rfl
  induction v with
  | nil => rfl
  | cons c v ih =>
    by_cases hc : c = ' '
    · subst hc
      exact ih
    · have hquote : quoteToAscii (c :: v) = quoteChar c ++ quoteToAscii v := rfl
      rw [hquote, leadingBlanks_quoteChar hc, hzero, dropWhile_cons_of_neg (by simpa using hc), ← hquote]

theorem valueText_quoteToAscii (v : Text) :
    valueText ('=' :: quoteToAscii v) = quoteToAscii (v.dropWhile (· == ' ')) := by
  have hlength : separatorLength ('=' :: quoteToAscii v) = leadingBlanks (quoteToAscii v) + 1 := Nat.add_comm _ _
  have hstep : getFrom (leadingBlanks (quoteToAscii v) + 1) ('=' :: quoteToAscii v) =
      getFrom (leadingBlanks (quoteToAscii v)) (quoteToAscii v) := rfl
  rw [valueText, hlength, hstep, getFrom_leadingBlanks]
  rfl

/-- **What is read of a pair that has been written.** -/
theorem pairOf_pair (h : ∀ c ∈ key, isSeparator c = false ∧ c ≠ '\\') (v : Text) :
    pairOf (key ++ '=' :: quoteToAscii v) = some (key, (v.dropWhile (· == ' ')).flatMap readBack) := by
  have hkey : '\\' ∉ key := fun hmem => (h _ hmem).2 rfl
  rw [pairOf, splitKey_append h, unescape_of_not_mem hkey, valueText_quoteToAscii, unescape_quoteToAscii]
  rfl

theorem classify_pair (h : PlainKey key) (v raw : Text) :
    classify (key ++ '=' :: quoteToAscii v) raw = .pair key ((v.dropWhile (· == ' ')).flatMap readBack) := by
  have hhead : ∃ c rest, key ++ '=' :: quoteToAscii v = c :: rest ∧ isWhitespace c = false ∧ c ≠ '#' ∧ c ≠ '!' := by
    cases key with
    | nil => exact ⟨'=', _, rfl, by decide, by decide, by decide⟩
    | cons c key =>
      have hc := (h.plain c mem_cons_self).1
      rw [isSeparator, Bool.or_eq_false_iff] at hc
      exact ⟨c, _, rfl, hc.2, fun heq => h.noHash (congrArg some heq), fun heq => h.noBang (congrArg some heq)⟩
  obtain ⟨c, rest, hline, hblank, hhash, hbang⟩ := hhead
  have hpair := pairOf_pair h.plain v
  rw [hline] at hpair ⊢
  have htrim : trimStart (c :: rest) = c :: rest := dropWhile_cons_of_neg (by simp [hblank])
  rw [classify, htrim]
  dsimp only
  rw [if_neg (not_or.mpr ⟨hhash, hbang⟩), hpair]

/-- A value that is read as it was written. -/
def ValueKept (v : Text) : Prop := v.head? ≠ some ' ' ∧ ∀ c ∈ v, Kept c

theorem readBack_value_eq_iff {v : Text} : (v.dropWhile (· == ' ')).flatMap readBack = v ↔ ValueKept v := by
  unfold ValueKept
  by_cases hspace : v.head? = some ' '
  · refine iff_of_false (fun h => ?_) fun h => h.1 hspace
    -- what is left has no leading space, and neither has what is read of it
    have hfirst := head?_dropWhile_not (· == ' ') v
    rw [← h] at hspace
    cases hrest : v.dropWhile (· == ' ') with
    | nil => rw [hrest] at hspace; exact absurd hspace nofun
    | cons c rest =>
      rw [hrest] at hspace hfirst
      by_cases hc : Kept c
      · rw [flatMap_cons, readBack_of_kept hc] at hspace
        have hcs : c = ' ' := Option.some.inj hspace
        rw [hcs] at hfirst
        exact absurd (show (' ' == ' ') = false from hfirst) (by decide)
      · obtain ⟨x, hx, text, hread⟩ := readBack_of_not_kept hc
        rw [flatMap_cons, hread] at hspace
        rw [show x = ' ' from Option.some.inj hspace] at hx
        exact absurd hx (by decide)
  · have hdrop : v.dropWhile (· == ' ') = v := by
      cases v with
      | nil => rfl
      | cons c v => exact dropWhile_cons_of_neg (by simpa using hspace)
    rw [hdrop, flatMap_readBack_eq_iff, and_iff_right hspace]

/-! ## The lines of an item -/

theorem isContinuation_quoteToAscii (v : Text) : isContinuation (quoteToAscii v) = false := by
  induction v using reverseRecOn with
  | nil => rfl
  | append_singleton v c ih =>
    rw [quoteToAscii, flatMap_append, flatMap_singleton, ← quoteToAscii]
    rw [isContinuation_append ih]
    have hquoted := quoted_quoteChar c
    generalize quoteChar c = text at hquoted ⊢
    cases hquoted with
    | plain _ hc => exact isContinuation_append_cons hc [] []
    | backslash => rfl
    | @escape x rest hgraphic =>
      rw [← Bool.not_eq_true]
      intro hcontinued
      obtain ⟨text, heq, -⟩ := of_isContinuation hcontinued
      have hlast : ('\\' :: x :: rest).getLast? = some '\\' := heq ▸ getLast?_concat
      exact (hgraphic _ (mem_of_getLast? hlast)).2.2 rfl

theorem not_mem_quoteToAscii (hc : c = '\n' ∨ c = '\r') (v : Text) : c ∉ quoteToAscii v := by
  intro hmem
  obtain ⟨d, -, hd⟩ := mem_flatMap.mp hmem
  obtain ⟨hprint, hbackslash, hgraphic⟩ : ¬ (' ' ≤ c ∧ c ≤ '~') ∧ c ≠ '\\' ∧ ¬ Graphic c := by
    rcases hc with rfl | rfl <;> decide
  have hquoted := quoted_quoteChar d
  generalize quoteChar d = text at hquoted hd
  cases hquoted with
  | plain h _ => exact hprint (mem_singleton.mp hd ▸ h)
  | backslash => simp [hbackslash] at hd
  | escape h => exact hgraphic (h c ((mem_cons.mp hd).resolve_left hbackslash))

/-- An item whose text ends in a backslash takes the next line when it is read again. -/
def PropertyLine.isOpen : PropertyLine → Bool
  | .comment text | .raw text => isContinuation (dropCr text)
  | _ => false

theorem dropCr_of_not_mem (h : '\r' ∉ text) : dropCr text = text :=
  if_neg fun hlast => h (mem_of_getLast? hlast)

theorem dropCr_append_cons (hc : c ≠ '\r') (a b : Text) : dropCr (a ++ c :: b) = a ++ c :: dropCr b := by
  cases b using reverseRecOn with
  | nil => exact if_neg (by simpa using hc)
  | append_singleton b d =>
    rw [dropCr, dropCr, ← cons_append, ← append_assoc, getLast?_concat, getLast?_concat,
      dropLast_concat, dropLast_concat]
    split_ifs
    · rfl
    · rw [append_assoc, cons_append]

theorem split_last_newline (text : Text) : '\n' ∉ text ∨ ∃ a b, text = a ++ '\n' :: b ∧ '\n' ∉ b := by
  induction text with
  | nil => exact .inl not_mem_nil
  | cons c text ih =>
    rcases ih with h | ⟨a, b, rfl, hb⟩
    · by_cases hc : c = '\n'
      · exact .inr ⟨[], text, by rw [hc]; rfl, h⟩
      · exact .inl (not_mem_cons_of_ne_of_not_mem (Ne.symm hc) h)
    · exact .inr ⟨c :: a, b, rfl, hb⟩

theorem lines_concat (text : Text) :
    ∃ before line, lines (text ++ ['\n']) = before ++ [line] ∧ isContinuation line = isContinuation (dropCr text) := by
  rcases split_last_newline text with h | ⟨a, b, rfl, hb⟩
  · exact ⟨[], _, lines_of_not_mem h, rfl⟩
  · refine ⟨lines (a ++ ['\n']), dropCr b, ?_, ?_⟩
    · rw [append_assoc, cons_append, lines_append, lines_of_not_mem hb]
    · rw [dropCr_append_cons (by decide), isContinuation_append_cons (by decide)]

theorem lines_render (item : PropertyLine) :
    ∃ before line, lines (render item) = before ++ [line] ∧ isContinuation line = item.isOpen := by
  cases item with
  | pair key value =>
    have hrender : render (.pair key value) = (key ++ '=' :: quoteToAscii value) ++ ['\n'] := by
      rw [render, append_assoc, cons_append]
    obtain ⟨before, line, hlines, hline⟩ := lines_concat (key ++ '=' :: quoteToAscii value)
    refine ⟨before, line, hrender ▸ hlines, ?_⟩
    rw [hline, dropCr_append_cons (by decide), isContinuation_append_cons (by decide),
      dropCr_of_not_mem (not_mem_quoteToAscii (.inr rfl) value), isContinuation_quoteToAscii]
    rfl
  | comment text => exact lines_concat text
  | blank => exact ⟨[], [], rfl, rfl⟩
  | raw text => exact lines_concat text

theorem lines_flatMap_concat (item : PropertyLine) :
    ∃ before line, lines ((items ++ [item]).flatMap render) = before ++ [line] ∧ isContinuation line = item.isOpen := by
  obtain ⟨before, line, hlines, hline⟩ := lines_render item
  refine ⟨lines (items.flatMap render) ++ before, line, ?_, hline⟩
  rw [lines_flatMap_render, flatMap_append, flatMap_singleton, hlines, ← lines_flatMap_render, append_assoc]

theorem parse_flatMap_append (items rest : List PropertyLine) :
    parse ((items ++ rest).flatMap render) = parseLines (lines (items.flatMap render) ++ lines (rest.flatMap render)) := by
  rw [parse, lines_flatMap_render, flatMap_append, ← lines_flatMap_render, ← lines_flatMap_render]

variable {items : List PropertyLine}

/-- What has been written before is read by itself, unless its last item is open. -/
theorem parse_append_of_closed
    (h : ∀ item, items.getLast? = some item → item.isOpen = false) (rest : List PropertyLine) :
    parse ((items ++ rest).flatMap render) = parse (items.flatMap render) ++ parse (rest.flatMap render) := by
  rw [parse_flatMap_append]
  refine parseLines_append (fun line hlast => ?_) _
  cases items using reverseRecOn with
  | nil => exact absurd hlast nofun
  | append_singleton items item =>
    obtain ⟨before, line', hlines, hline⟩ := lines_flatMap_concat items item
    rw [hlines, getLast?_concat, Option.some.injEq] at hlast
    rw [← hlast, hline]
    exact h item getLast?_concat

theorem length_parse_of_open {item : PropertyLine} (hlast : items.getLast? = some item)
    (hopen : item.isOpen = true) {x : Text} {next : PropertyLine} (hnext : lines (render next) = [x])
    (hx : isContinuation x = false) (rest : List PropertyLine) :
    (parse ((items ++ next :: rest).flatMap render)).length =
      (parse (items.flatMap render)).length + (parse (rest.flatMap render)).length := by
  obtain ⟨items, rfl⟩ := getLast?_eq_some_iff.mp hlast
  obtain ⟨before, line, hlines, hline⟩ := lines_flatMap_concat items item
  have hcons : lines ((next :: rest).flatMap render) = x :: lines (rest.flatMap render) := by
    rw [lines_flatMap_render, flatMap_cons, hnext, ← lines_flatMap_render, singleton_append]
  rw [parse_flatMap_append, hcons, parse, hlines]
  rw [← hline] at hopen
  cases before with
  | nil => exact length_parseFrom_of_continued (a := []) hopen hx _
  | cons first before =>
    refine length_parseFrom_of_continued (a := before ++ [line]) ?_ hx _
    rw [getLastD_concat]
    exact hopen

/-! ## Pairs that are read back -/

/-- The keys of letters, digits, `-` and `_`. -/
def SimpleKey (key : Text) : Prop :=
  ∀ c ∈ key, ('a' ≤ c ∧ c ≤ 'z') ∨ ('A' ≤ c ∧ c ≤ 'Z') ∨ ('0' ≤ c ∧ c ≤ '9') ∨ c = '-' ∨ c = '_'

instance (key : Text) : Decidable (SimpleKey key) := List.decidableBAll _ key

theorem plainKey_of_simpleKey (h : SimpleKey key) : PlainKey key := by
  have hchar : ∀ c ∈ key, (0x30 ≤ c.toNat ∧ c.toNat ≤ 0x39) ∨ (0x41 ≤ c.toNat ∧ c.toNat ≤ 0x7A ∧ c.toNat ≠ 0x5C) ∨
      c.toNat = 0x2D := by
    intro c hc
    rcases h c hc with hlower | hupper | hdigit | rfl | rfl
    · have hlo : 0x61 ≤ c.toNat := hlower.1
      have hhi : c.toNat ≤ 0x7A := hlower.2
      omega
    · have hlo : 0x41 ≤ c.toNat := hupper.1
      have hhi : c.toNat ≤ 0x5A := hupper.2
      omega
    · exact .inl hdigit
    · decide
    · decide
  have hne : ∀ {c d : Char}, c ∈ key → d = '#' ∨ d = '!' ∨ d = '=' ∨ d = ':' ∨ d = ' ' ∨ d = '\\' → c ≠ d := by
    rintro c d hc hd rfl
    have hrange := hchar c hc
    rcases hd with rfl | rfl | rfl | rfl | rfl | rfl <;> revert hrange <;> decide
  have hhead : ∀ {d : Char}, (∀ c ∈ key, c ≠ d) → key.head? ≠ some d := fun hd heq =>
    hd _ (mem_of_mem_head? heq) rfl
  refine ⟨fun c hc => ⟨?_, hne hc (by simp)⟩, hhead fun c hc => hne hc (by simp), hhead fun c hc => hne hc (by simp)⟩
  have hblank : isWhitespace c = false := by
    refine isWhitespace_of_printable ?_ (hne hc (by simp))
    have hrange := hchar c hc
    exact ⟨show 0x20 ≤ c.toNat by omega, show c.toNat ≤ 0x7E by omega⟩
  rw [isSeparator, hblank, Bool.or_false, Bool.or_eq_false_iff, beq_eq_false_iff_ne, beq_eq_false_iff_ne]
  exact ⟨hne hc (by simp), hne hc (by simp)⟩

/-- A file that has been written, read again: the pair between the items before and after it is an item of its own,
and when the file is written once more its line is as it was. -/
structure ReadsBack (output : Text) (before after : List PropertyLine) (key value : Text) : Prop where
  parsed : parse output = parse (before.flatMap render) ++ .pair key value :: parse (after.flatMap render)
  again : processFile [] output =
    processFile [] (before.flatMap render) ++ render (.pair key value) ++ processFile [] (after.flatMap render)

/-- With no replacements, the items are written as they have been read. -/
theorem processFile_nil (content : Text) : processFile [] content = (parse content).flatMap render := by
  have hrewrite : rewrite [] = id := by
    funext item
    cases item <;> rfl
  rw [processFile, written, hrewrite, map_id]
  exact congrArg (flatMap render) (append_nil _)

theorem lines_pair (h : PlainKey key) (value : Text) :
    lines (render (.pair key value)) = [key ++ '=' :: quoteToAscii value] := by
  have hkey : ∀ c ∈ key, c ≠ '\n' ∧ c ≠ '\r' := fun c hc => by
    have hsep := (h.plain c hc).1
    constructor <;> rintro rfl <;> exact absurd hsep (by decide)
  have hrender : render (.pair key value) = (key ++ '=' :: quoteToAscii value) ++ ['\n'] := by
    rw [render, append_assoc, cons_append]
  have hnewline : '\n' ∉ key ++ '=' :: quoteToAscii value := by
    rw [mem_append, mem_cons, not_or, not_or]
    exact ⟨fun hmem => (hkey _ hmem).1 rfl, by decide, not_mem_quoteToAscii (.inl rfl) value⟩
  rw [hrender, lines_of_not_mem hnewline, dropCr_append_cons (by decide),
    dropCr_of_not_mem (not_mem_quoteToAscii (.inr rfl) value)]

theorem parse_pair (h : PlainKey key) (value : Text) :
    parse (render (.pair key value)) = [.pair key ((value.dropWhile (· == ' ')).flatMap readBack)] := by
  have hclosed : isContinuation (key ++ '=' :: quoteToAscii value) = false := by
    rw [isContinuation_append_cons (by decide), isContinuation_quoteToAscii]
  rw [parse, lines_pair h, parseLines, parseFrom, hclosed, if_neg Bool.false_ne_true, classify_pair h]

theorem parse_around {before : List PropertyLine} (hbefore : ∀ item, before.getLast? = some item → item.isOpen = false)
    (h : PlainKey key) (value : Text) (after : List PropertyLine) :
    parse ((before ++ .pair key value :: after).flatMap render) =
      parse (before.flatMap render) ++
        .pair key ((value.dropWhile (· == ' ')).flatMap readBack) :: parse (after.flatMap render) := by
  have hpair : ∀ item, [PropertyLine.pair key value].getLast? = some item → item.isOpen = false := by
    rintro item ⟨⟩
    rfl
  have hafter := parse_append_of_closed hpair after
  rw [flatMap_singleton, parse_pair h] at hafter
  rw [parse_append_of_closed hbefore]
  exact congrArg _ hafter

/-- **A pair with a simple key is read back exactly if** its value has no leading space and only characters whose
escapes are known, and it does not stand behind a comment or an unreadable line that ends in a backslash. -/
theorem reads_back_iff {replacements : List ResolvedReplacement} {content : Text} {before after : List PropertyLine}
    {key value : Text} (hwritten : written replacements content = before ++ .pair key value :: after)
    (hkey : SimpleKey key) :
    ReadsBack (processFile replacements content) before after key value ↔
      ValueKept value ∧ ∀ item, before.getLast? = some item → item.isOpen = false := by
  have hplain := plainKey_of_simpleKey hkey
  rw [processFile, hwritten]
  constructor
  · intro h
    have hbefore : ∀ item, before.getLast? = some item → item.isOpen = false := by
      intro item hlast
      rw [← Bool.not_eq_true]
      intro hopen
      have hlength := length_parse_of_open hlast hopen (lines_pair hplain value)
        (by rw [isContinuation_append_cons (by decide), isContinuation_quoteToAscii]) after
      rw [h.parsed, length_append, length_cons] at hlength
      omega
    refine ⟨?_, hbefore⟩
    have hparsed := h.parsed
    rw [parse_around hbefore hplain, append_cancel_left_eq, cons.injEq, PropertyLine.pair.injEq] at hparsed
    exact readBack_value_eq_iff.mp hparsed.1.2
  · rintro ⟨hvalue, hbefore⟩
    have hparsed := parse_around hbefore hplain value after
    rw [readBack_value_eq_iff.mpr hvalue] at hparsed
    refine ⟨hparsed, ?_⟩
    rw [processFile_nil, processFile_nil, processFile_nil, hparsed, flatMap_append, flatMap_cons, append_assoc]

/-- A pair behind another one, with a value that is written with an escape. -/
theorem reads_back_escaped_pair :
    ReadsBack (processFile [] ['a', '=', 'b', '\n', 'c', '=', 'é']) [.pair ['a'] ['b']] [] ['c'] ['é'] := by
  have hwritten : written [] ['a', '=', 'b', '\n', 'c', '=', 'é'] = [.pair ['a'] ['b']] ++ .pair ['c']
      ['é'] :: [] := by decide
  have hvalue : ∀ c ∈ ['é'], Kept c := forall_mem_singleton.mpr (by decide)
  refine (reads_back_iff hwritten (by decide)).mpr ⟨⟨by decide, hvalue⟩, fun item h => ?_⟩
  cases h
  rfl

/-- **A character beyond the basic plane is not read back**: it is written with an escape that the reader does not
know. -/
theorem astral_value_lost :
    let value := [Char.ofNat 0x1F3AE]
    written [] ('m' :: '=' :: value) = [.pair ['m'] value] ∧ SimpleKey ['m'] ∧
      parse (processFile [] ('m' :: '=' :: value)) = [.pair ['m'] ['U', '0', '0', '0', '1', 'f', '3', 'a', 'e']] ∧
      ¬ ReadsBack (processFile [] ('m' :: '=' :: value)) [] [] ['m'] value := by
  intro value
  have hparse : parse (processFile [] ('m' :: '=' :: value)) =
      [.pair ['m'] ['U', '0', '0', '0', '1', 'f', '3', 'a', 'e']] := by decide
  refine ⟨by decide, by decide, hparse, fun h => ?_⟩
  have hparsed := h.parsed
  exact absurd hparsed (by decide)

end Wings.Configuration.Properties
