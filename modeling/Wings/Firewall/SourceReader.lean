import Wings.Firewall.Sets
import Wings.Utf8

/-!
# Wings.Firewall.SourceReader — a source file, byte by byte

`next_line` and `stream_source_file` of `server/firewall/sets.rs`.  The file is read line by line, each read
limited to what the budget of bytes has left and one more, and the networks are handed on in batches.

* **`streamSourceFile_ok_iff`**
-/

namespace Wings.Firewall.SourceReader

open Lib List

def newline : Byte := 0x0A
def carriageReturn : Byte := 0x0D

/-! ## Reading up to a byte -/

/-- What a buffered reader will have in its buffer, one after the other. -/
abbrev Reader := List { chunk : Name // chunk ≠ [] }

def Reader.content (reader : Reader) : Name := reader.flatMap (·.1)

/-- `AsyncBufRead::consume`, of no more than what is in the buffer. -/
def Reader.consume (n : ℕ) : Reader → Reader
  | [] => []
  | chunk :: chunks => if h : chunk.1.drop n = [] then chunks else ⟨chunk.1.drop n, h⟩ :: chunks

/-- `reader.take(limit).read_until(byte)`: the bytes read, and the reader afterwards. -/
def readUntil (byte : Byte) : (limit : ℕ) → Reader → Name × Reader
  | _, [] => ([], [])
  | limit, chunk :: chunks =>
    let available := chunk.1.take limit
    match available.findIdx? (· = byte) with
    | some i => (available.take (i + 1), Reader.consume (i + 1) (chunk :: chunks))
    | none =>
      if chunk.1.length ≤ limit then
        let (read, reader) := readUntil byte (limit - chunk.1.length) chunks
        (chunk.1 ++ read, reader)
      else (available, Reader.consume available.length (chunk :: chunks))

/-- The bytes up to the first one that is looked for. -/
def upTo (byte : Byte) : Name → Name
  | [] => []
  | b :: rest => if b = byte then [b] else b :: upTo byte rest

theorem isPrefix_upTo (byte : Byte) (bytes : Name) : upTo byte bytes <+: bytes := by
  induction bytes with
  | nil => exact prefix_rfl
  | cons b rest ih =>
    rw [upTo]
    split
    · exact ⟨rest, rfl⟩
    · exact cons_prefix_cons.mpr ⟨rfl, ih⟩

variable {bytes : Name} {byte : Byte}

theorem upTo_of_not_mem (h : byte ∉ bytes) : upTo byte bytes = bytes := by
  induction bytes with
  | nil => rfl
  | cons b rest ih =>
    rw [mem_cons, not_or] at h
    obtain ⟨hb, hrest⟩ := h
    rw [upTo, if_neg (Ne.symm hb), ih hrest]

theorem upTo_append_of_not_mem (h : byte ∉ bytes) (rest : Name) :
    upTo byte (bytes ++ rest) = bytes ++ upTo byte rest := by
  induction bytes with
  | nil => rfl
  | cons b bytes ih =>
    rw [mem_cons, not_or] at h
    obtain ⟨hb, hbytes⟩ := h
    rw [cons_append, upTo, if_neg (Ne.symm hb), ih hbytes, cons_append]

theorem upTo_append_of_mem (h : byte ∈ bytes) (rest : Name) : upTo byte (bytes ++ rest) = upTo byte bytes := by
  induction bytes with
  | nil => cases h
  | cons b bytes ih =>
    rw [cons_append, upTo, upTo]
    split
    · rfl
    next hb => rw [ih ((mem_cons.mp h).resolve_left (Ne.symm hb))]

theorem content_cons (chunk : { chunk : Name // chunk ≠ [] }) (chunks : Reader) :
    Reader.content (chunk :: chunks) = chunk.1 ++ Reader.content chunks := flatMap_cons

theorem content_consume {n : ℕ} {chunk : { chunk : Name // chunk ≠ [] }} {chunks : Reader} (h : n ≤ chunk.1.length) :
    Reader.content (Reader.consume n (chunk :: chunks)) = (Reader.content (chunk :: chunks)).drop n := by
  rw [content_cons, drop_append_of_le_length h, Reader.consume]
  split
  next hempty => rw [hempty, nil_append]
  next => rw [content_cons]

theorem upTo_eq_take {i : ℕ} (h : bytes.findIdx? (· = byte) = some i) : upTo byte bytes = bytes.take (i + 1) := by
  induction bytes generalizing i with
  | nil => cases h
  | cons b rest ih =>
    rw [findIdx?_cons] at h
    rw [upTo]
    split at h
    next hb =>
      cases h
      rw [if_pos (of_decide_eq_true hb)]
      rfl
    next hb =>
      obtain ⟨j, hj, rfl⟩ := Option.map_eq_some_iff.mp h
      rw [if_neg (of_decide_eq_false (Bool.not_eq_true _ ▸ hb)), ih hj, take_succ_cons]

/-- **The chunks do not matter**: what is read are the bytes up to the byte or the limit, and the rest is left. -/
theorem readUntil_spec (byte : Byte) (limit : ℕ) (reader : Reader) :
    (readUntil byte limit reader).1 = upTo byte (reader.content.take limit) ∧
      (readUntil byte limit reader).2.content = reader.content.drop (upTo byte (reader.content.take limit)).length := by
  induction reader generalizing limit with
  | nil =>
    rw [show Reader.content [] = [] from rfl, take_nil]
    exact ⟨rfl, rfl⟩
  | cons chunk chunks ih =>
    rw [readUntil, content_cons, take_append]
    dsimp only
    split
    next i hfound =>
      -- the byte is in the buffer
      have hmem : byte ∈ chunk.1.take limit := by
        obtain ⟨hi, hbyte, -⟩ := findIdx?_eq_some_iff_getElem.mp hfound
        exact of_decide_eq_true hbyte ▸ getElem_mem hi
      have hi : i + 1 ≤ (chunk.1.take limit).length := (findIdx?_eq_some_iff_getElem.mp hfound).1
      have hle : i + 1 ≤ chunk.1.length := hi.trans (length_take_le' ..)
      rw [upTo_append_of_mem hmem, upTo_eq_take hfound, content_consume hle, length_take_of_le hi]
      exact ⟨rfl, rfl⟩
    next hnone =>
      have hmem : byte ∉ chunk.1.take limit := fun hmem => by
        have := findIdx?_eq_none_iff.mp hnone byte hmem
        simp at this
      rw [upTo_append_of_not_mem hmem]
      split
      next hle =>
        obtain ⟨hread, hrest⟩ := ih (limit - chunk.1.length)
        rw [take_of_length_le hle, length_append, ← drop_drop, drop_left, hrest, hread]
        exact ⟨rfl, rfl⟩
      next hlt =>
        -- the limit is in the buffer
        have hzero : limit - chunk.1.length = 0 := by omega
        rw [hzero, take_zero, upTo, append_nil, content_consume (length_take_le' ..)]
        exact ⟨rfl, rfl⟩

/-! ## Lines -/

def stripCr (line : Name) : Name := if line.getLast? = some carriageReturn then line.dropLast else line

/-- The end of `next_line`: a line that is ended by a newline loses it, and a carriage return before it. -/
def stripEnding (buffer : Name) : Name :=
  if buffer.getLast? = some newline then stripCr buffer.dropLast else buffer

/-- The lines of a file, without their endings, after the bytes of the first one that have been read.  What comes
after the last newline is a line if there is something. -/
def linesFrom (line : Name) : Name → List Name
  | [] => if line = [] then [] else [line]
  | b :: rest => if b = newline then stripCr line :: linesFrom [] rest else linesFrom (line ++ [b]) rest

def lines (content : Name) : List Name := linesFrom [] content

abbrev ParseInet := Text → Option IpCidr

variable (parse : ParseInet) (content : Name)

def parseLine (line : Text) : ParsedLine :=
  let line := trim (line.takeWhile (· ≠ '#'))
  if line = [] then .blank
  else
    match parse line with
    | some network => .entry network
    | none => .invalid

/-- The lines of a file as they are counted and parsed. -/
def fileLines (content : Name) : List Line :=
  (lines content).map fun line => ⟨line.length, (decodeUtf8 line).map (parseLine parse)⟩

def u64Max : ℕ := 2 ^ 64 - 1

/-- `next_line`, with the reader and the bytes counted afterwards. -/
def nextLine (reader : Reader) (bytes maxBytes : ℕ) : Except LoadError (Option (Text × Reader × ℕ)) :=
  let limit := min (maxBytes - bytes + 1) u64Max
  let (buffer, reader) := readUntil newline limit reader
  if buffer = [] then .ok none
  else
    let buffer := stripEnding buffer
    let bytes := bytes + (buffer.length + 1)
    if maxBytes < bytes then .error (.tooLarge maxBytes)
    else
      match decodeUtf8 buffer with
      | none => .error .io
      | some line => .ok (some (line, reader, bytes))

theorem linesFrom_eq {line content : Name} (hne : line ++ content ≠ []) :
    linesFrom line content =
      (if newline ∈ content then stripCr (line ++ (upTo newline content).dropLast) else line ++ content) ::
        lines (content.drop (upTo newline content).length) := by
  induction content generalizing line with
  | nil =>
    rw [append_nil] at hne
    rw [linesFrom, if_neg hne, append_nil]
    rfl
  | cons b rest ih =>
    rw [linesFrom, upTo]
    by_cases hb : b = newline
    · rw [if_pos hb, if_pos hb, if_pos (mem_cons.mpr (.inl hb.symm)), dropLast_singleton, append_nil]
      rfl
    · have hmem : newline ∈ b :: rest ↔ newline ∈ rest := by simp [Ne.symm hb]
      rw [if_neg hb, if_neg hb, ih (by simp)]
      simp only [hmem, append_assoc, singleton_append, length_cons, drop_succ_cons]
      split
      next hin =>
        have hup : upTo newline rest ≠ [] := fun hnil => by
          cases rest with
          | nil => cases hin
          | cons c rest => rw [upTo] at hnil; split at hnil <;> cases hnil
        rw [dropLast_cons_of_ne_nil hup]
      next => rfl

theorem getLast?_upTo (h : byte ∈ bytes) : (upTo byte bytes).getLast? = some byte := by
  induction bytes with
  | nil => cases h
  | cons b rest ih =>
    rw [upTo]
    split
    next hb => rw [getLast?_singleton, hb]
    next hb =>
      have hlast := ih ((mem_cons.mp h).resolve_left (Ne.symm hb))
      rw [getLast?_cons, hlast, Option.getD_some]

theorem lines_eq {content : Name} (hne : content ≠ []) :
    lines content = stripEnding (upTo newline content) :: lines (content.drop (upTo newline content).length) := by
  rw [lines, linesFrom_eq (by rwa [nil_append]), nil_append, nil_append, stripEnding]
  split
  next hmem => rw [getLast?_upTo hmem, if_pos rfl]
  next hmem =>
    rw [upTo_of_not_mem hmem, if_neg]
    exact fun hlast => hmem (mem_of_getLast? hlast)

theorem upTo_ne_nil (byte : Byte) (hne : bytes ≠ []) : upTo byte bytes ≠ [] := by
  cases bytes with
  | nil => exact absurd rfl hne
  | cons b rest =>
    rw [upTo]
    split <;> exact cons_ne_nil _ _

theorem length_le_stripEnding (buffer : Name) : buffer.length ≤ (stripEnding buffer).length + 2 := by
  unfold stripEnding stripCr
  split
  · split
    · rw [length_dropLast, length_dropLast]
      omega
    · rw [length_dropLast]
      omega
  · omega

/-- The limit may cut a line only if it is too long for the budget, ending included. -/
theorem upTo_take (limit : ℕ) :
    upTo newline (content.take limit) = upTo newline content ∨
      (upTo newline (content.take limit) = content.take limit ∧ limit < (upTo newline content).length ∧
        newline ∉ content.take limit) := by
  by_cases hmem : newline ∈ content.take limit
  · left
    nth_rewrite 2 [← take_append_drop limit content]
    rw [upTo_append_of_mem hmem]
  · rw [upTo_of_not_mem hmem]
    have hup : upTo newline content = content.take limit ++ upTo newline (content.drop limit) := by
      nth_rewrite 1 [← take_append_drop limit content]
      rw [upTo_append_of_not_mem hmem]
    by_cases hdrop : content.drop limit = []
    · left
      rw [hup, hdrop, upTo, append_nil]
    · right
      have hlt : limit < content.length := by
        rw [drop_eq_nil_iff] at hdrop
        omega
      have hpos := length_pos_iff.mpr (upTo_ne_nil newline hdrop)
      refine ⟨rfl, ?_, hmem⟩
      rw [hup, length_append, length_take_of_le hlt.le]
      omega

theorem exists_reader : ∃ reader : Reader, reader.content = content := by
  cases content with
  | nil => exact ⟨[], rfl⟩
  | cons b rest => exact ⟨[⟨b :: rest, cons_ne_nil _ _⟩], (content_cons ..).trans (append_nil _)⟩

/-- **A line is read as a whole, or is too large.** -/
theorem nextLine_spec {reader : Reader} {bytes maxBytes : ℕ} (hsize : reader.content.length < u64Max)
    (hbytes : bytes ≤ maxBytes) (hne : reader.content ≠ []) :
    ∃ reader' : Reader, reader'.content = reader.content.drop (upTo newline reader.content).length ∧
      nextLine reader bytes maxBytes =
        if maxBytes < bytes + ((stripEnding (upTo newline reader.content)).length + 1) then .error (.tooLarge maxBytes)
        else
          match decodeUtf8 (stripEnding (upTo newline reader.content)) with
          | none => .error .io
          | some line =>
            .ok (some (line, reader', bytes + ((stripEnding (upTo newline reader.content)).length + 1))) := by
  set limit := min (maxBytes - bytes + 1) u64Max with hlimit
  obtain ⟨hread, hrest⟩ := readUntil_spec newline limit reader
  have hpositive : 0 < limit := by omega
  have htake : reader.content.take limit ≠ [] := fun hnil => (take_eq_nil_iff.mp hnil).elim hpositive.ne' hne
  have hnext : nextLine reader bytes maxBytes =
      let buffer := stripEnding (upTo newline (reader.content.take limit))
      if maxBytes < bytes + (buffer.length + 1) then .error (.tooLarge maxBytes)
      else
        match decodeUtf8 buffer with
        | none => .error .io
        | some line => .ok (some (line, (readUntil newline limit reader).2, bytes + (buffer.length + 1))) := by
    rw [nextLine]
    dsimp only
    rw [hread, if_neg (upTo_ne_nil newline htake)]
  rw [hnext]
  rcases upTo_take reader.content limit with heq | ⟨heq, hlt, hmem⟩
  · rw [heq] at hrest ⊢
    exact ⟨_, hrest, rfl⟩
  · -- the line was cut: it is charged more than the budget has, and so is the whole line
    have hprefix := (isPrefix_upTo newline reader.content).length_le
    have hlength : (reader.content.take limit).length = limit := length_take_of_le (by omega)
    have hstrip : stripEnding (reader.content.take limit) = reader.content.take limit :=
      if_neg fun hlast => hmem (mem_of_getLast? hlast)
    have hwhole := length_le_stripEnding (upTo newline reader.content)
    obtain ⟨reader', hreader'⟩ : ∃ reader' : Reader, reader'.content =
        reader.content.drop (upTo newline reader.content).length :=
      exists_reader _
    refine ⟨reader', hreader', ?_⟩
    rw [heq, hstrip, if_pos (by omega), if_pos (by omega)]

theorem nextLine_nil {reader : Reader} (bytes maxBytes : ℕ) (hnil : reader.content = []) :
    nextLine reader bytes maxBytes = .ok none := by
  have hread := (readUntil_spec newline (min (maxBytes - bytes + 1) u64Max) reader).1
  rw [hnil, take_nil, upTo] at hread
  rw [nextLine]
  dsimp only
  rw [hread, if_pos rfl]

/-! ## The file -/

structure LoadStats where
  entries : ℕ
  invalid : ℕ

def entryBatchSize : ℕ := 256

/-- The variables of `stream_source_file`, and the batches that have been written. -/
structure Streaming where
  reader : Reader
  bytes : ℕ
  stats : LoadStats
  batch : List IpCidr
  written : List (List IpCidr)

namespace Streaming

/-- The end of a round: a full batch is written. -/
def flush (st : Streaming) : Streaming :=
  if entryBatchSize ≤ st.batch.length then { st with batch := [], written := st.written ++ [st.batch] } else st

/-- What is written after the last line. -/
def finish (st : Streaming) : List (List IpCidr) := if st.batch = [] then st.written else st.written ++ [st.batch]

/-- What is written and what waits to be. -/
def entries (st : Streaming) : List IpCidr := st.written.flatten ++ st.batch

end Streaming

/-- The rounds of `stream_source_file`; every round but the last reads at least one byte. -/
def streamLoop (limits : SourceFileLimits) : ℕ → Streaming → Except LoadError LoadStats × List (List IpCidr)
  | 0, st => (.error .io, st.written)
  | fuel + 1, st =>
    match nextLine st.reader st.bytes limits.maxBytes with
    | .error err => (.error err, st.written)
    | .ok none => (.ok st.stats, st.finish)
    | .ok (some (line, reader, bytes)) =>
      match parseLine parse line with
      | .blank => streamLoop limits fuel { st with reader, bytes }
      | .invalid =>
        streamLoop limits fuel { st with reader, bytes, stats := { st.stats with invalid := st.stats.invalid + 1 } }
      | .entry network =>
        let stats := { st.stats with entries := st.stats.entries + 1 }
        if limits.maxEntries < stats.entries then (.error (.tooManyEntries limits.maxEntries), st.written)
        else streamLoop limits fuel (Streaming.flush { st with reader, bytes, stats, batch := st.batch ++ [network] })

/-- `stream_source_file`: its result, and the batches it has written. -/
def streamSourceFile (limits : SourceFileLimits) (reader : Reader) : Except LoadError LoadStats × List (List IpCidr) :=
  streamLoop parse limits (reader.content.length + 1) ⟨reader, 0, ⟨0, 0⟩, [], []⟩

def networks (lines : List Line) : List IpCidr :=
  lines.filterMap fun line =>
    match line.parsed with
    | some (.entry network) => some network
    | _ => none

theorem networks_cons (line : Line) (ls : List Line) :
    networks (line :: ls) =
      (match line.parsed with | some (.entry network) => [network] | _ => []) ++ networks ls := by
  rw [networks, filterMap_cons]
  cases line.parsed with
  | none => rfl
  | some parsed => cases parsed <;> rfl

/-- The result of the loop is that of the loop over the lines; what was written before an error is the start of
`all`. -/
def Agrees (result : Except LoadError LoadStats × List (List IpCidr)) (all : List IpCidr) :
    Except LoadError (List IpCidr) → Prop
  | .ok entries => (∃ stats, result.1 = .ok stats ∧ stats.entries = entries.length) ∧ result.2.flatten = entries
  | .error err => result.1 = .error err ∧ result.2.flatten <+: all

@[simp] theorem Streaming.entries_flush (st : Streaming) : st.flush.entries = st.entries := by
  unfold flush entries
  split
  · rw [flatten_append, flatten_singleton, append_nil]
  · rfl

theorem Streaming.flush_fields (st : Streaming) :
    st.flush.reader = st.reader ∧ st.flush.bytes = st.bytes ∧ st.flush.stats = st.stats := by
  unfold flush
  split <;> exact ⟨rfl, rfl, rfl⟩

theorem Streaming.flatten_finish (st : Streaming) : st.finish.flatten = st.entries := by
  unfold finish entries
  split
  next hbatch => rw [hbatch, append_nil]
  next => rw [flatten_append, flatten_singleton]

variable (limits : SourceFileLimits)

/-- **The loop reads the lines of the file.** -/
theorem streamLoop_agrees {fuel : ℕ} (st : Streaming) (hfuel : st.reader.content.length < fuel)
    (hsize : st.reader.content.length < u64Max) (hbytes : st.bytes ≤ limits.maxBytes)
    (hentries : st.stats.entries = st.entries.length) :
    Agrees (streamLoop parse limits fuel st) (st.entries ++ networks (fileLines parse st.reader.content))
      (streamLines limits (fileLines parse st.reader.content) st.bytes st.entries) := by
  induction fuel generalizing st with
  | zero => omega
  | succ fuel ih =>
    have hwritten (rest : List IpCidr) : st.written.flatten <+: st.entries ++ rest :=
      (prefix_append _ st.batch).trans (prefix_append _ rest)
    rw [streamLoop]
    by_cases hne : st.reader.content = []
    · rw [nextLine_nil _ _ hne, hne]
      exact ⟨⟨st.stats, rfl, hentries⟩, st.flatten_finish⟩
    · obtain ⟨reader, hreader, hnext⟩ := nextLine_spec hsize hbytes hne
      rw [hnext, fileLines, lines_eq hne, map_cons, ← hreader, streamLines, networks_cons]
      have hshorter : reader.content.length < st.reader.content.length := by
        have hpos := length_pos_iff.mpr (upTo_ne_nil newline hne)
        have hle := (isPrefix_upTo newline st.reader.content).length_le
        rw [hreader, length_drop]
        omega
      set line := stripEnding (upTo newline st.reader.content)
      rw [Nat.add_assoc]
      by_cases hlarge : limits.maxBytes < st.bytes + (line.length + 1)
      · rw [if_pos hlarge, if_pos hlarge]
        exact ⟨rfl, hwritten _⟩
      · rw [if_neg hlarge, if_neg hlarge]
        cases hdecode : decodeUtf8 line with
        | none => exact ⟨rfl, hwritten _⟩
        | some text =>
          rw [Option.map_some]
          dsimp only
          have hfuel' : reader.content.length < fuel := by omega
          have hsize' : reader.content.length < u64Max := by omega
          have hbytes' := Nat.not_lt.mp hlarge
          cases hparse : parseLine parse text with
          | blank => exact ih _ hfuel' hsize' hbytes' hentries
          | invalid => exact ih _ hfuel' hsize' hbytes' hentries
          | entry network =>
            dsimp only
            rw [← hentries]
            split
            next => exact ⟨rfl, hwritten _⟩
            next =>
              set st' : Streaming := ⟨reader, st.bytes + (line.length + 1),
                { st.stats with entries := st.stats.entries + 1 }, st.batch ++ [network], st.written⟩
              obtain ⟨hflush, hflush', hflush''⟩ := st'.flush_fields
              have happend : st'.entries = st.entries ++ [network] := (append_assoc ..).symm
              have hagrees := ih st'.flush (by rwa [hflush]) (by rwa [hflush]) (by rwa [hflush'])
                (by rw [hflush'', Streaming.entries_flush, happend, length_append, ← hentries]; rfl)
              rwa [hflush, hflush', Streaming.entries_flush, happend, append_assoc] at hagrees

/-! ## What is accepted -/

def charge (lines : List Line) : ℕ := (lines.map fun line => line.length + 1).sum

/-- A file is accepted if all its lines are texts and neither limit is exceeded at the end. -/
theorem streamLines_eq_ok_iff {ls : List Line} {bytes : ℕ} {entries result : List IpCidr}
    (hbytes : bytes ≤ limits.maxBytes) (hentries : entries.length ≤ limits.maxEntries) :
    streamLines limits ls bytes entries = .ok result ↔
      (∀ line ∈ ls, line.parsed.isSome) ∧ bytes + charge ls ≤ limits.maxBytes ∧
        entries.length + (networks ls).length ≤ limits.maxEntries ∧ result = entries ++ networks ls := by
  induction ls generalizing bytes entries with
  | nil =>
    rw [streamLines, Except.ok.injEq, networks, filterMap_nil, append_nil]
    exact ⟨fun h => ⟨nofun, hbytes, hentries, h.symm⟩, fun h => h.2.2.2.symm⟩
  | cons line ls ih =>
    rw [streamLines, forall_mem_cons, charge, map_cons, sum_cons, ← charge]
    split
    next hlarge => exact ⟨nofun, fun h => by omega⟩
    next hlarge =>
      have hbytes' := Nat.not_lt.mp hlarge
      cases hparsed : line.parsed with
      | none => exact ⟨nofun, fun h => nomatch h.1.1⟩
      | some parsed =>
        have hsame : ∀ p : Prop, (true = true ∧ p) = p := fun p => by rw [eq_self, true_and]
        cases parsed with
        | blank | invalid =>
          have hnetworks : networks (line :: ls) = networks ls := by rw [networks_cons, hparsed]; rfl
          rw [hnetworks, Option.isSome_some, hsame, ← Nat.add_assoc]
          exact ih hbytes' hentries
        | entry network =>
          have hnetworks : networks (line :: ls) = network :: networks ls := by rw [networks_cons, hparsed]; rfl
          rw [hnetworks, Option.isSome_some, hsame, ← Nat.add_assoc, length_cons]
          dsimp only
          split
          next hmany => exact ⟨nofun, fun h => by omega⟩
          next hmany =>
            rw [ih hbytes' (by rw [length_append]; exact Nat.not_lt.mp hmany), length_append,
              append_assoc, length_singleton, Nat.add_assoc entries.length, Nat.add_comm 1]
            rfl

theorem validUtf8_stripCr (line : Name) : validUtf8 (stripCr line) = validUtf8 line := by
  unfold stripCr
  split
  next hlast =>
    obtain ⟨start, rfl⟩ := getLast?_eq_some_iff.mp hlast
    rw [dropLast_concat, validUtf8_append_ascii (by decide)]
    exact (Bool.and_true _).symm
  next => rfl

theorem validUtf8_iff_lines : validUtf8 content = true ↔ ∀ line ∈ lines content, validUtf8 line = true := by
  generalize hn : content.length = n
  induction n using Nat.strong_induction_on generalizing content with
  | _ n ih =>
    by_cases hne : content = []
    · rw [hne]
      exact ⟨fun _ => nofun, fun _ => rfl⟩
    rw [lines_eq hne, forall_mem_cons]
    have hpos := length_pos_iff.mpr (upTo_ne_nil newline hne)
    have hle := (isPrefix_upTo newline content).length_le
    have hrest := ih (content.drop (upTo newline content).length).length (by rw [length_drop]; omega) _ rfl
    rw [← hrest]
    by_cases hmem : newline ∈ content
    · obtain ⟨line, hline⟩ := getLast?_eq_some_iff.mp (getLast?_upTo hmem)
      obtain ⟨rest, hcontent⟩ := isPrefix_upTo newline content
      rw [stripEnding, getLast?_upTo hmem, if_pos rfl, validUtf8_stripCr, hline, dropLast_concat]
      rw [← hcontent, hline, drop_left, append_assoc, singleton_append,
        validUtf8_append_ascii (by decide), Bool.and_eq_true]
    · have hlast : content.getLast? ≠ some newline := fun hlast => hmem (mem_of_getLast? hlast)
      rw [upTo_of_not_mem hmem, stripEnding, if_neg hlast, drop_length]
      exact ⟨fun h => ⟨h, rfl⟩, fun h => h.1⟩

def sources (content : Name) : List IpCidr :=
  (lines content).filterMap fun line =>
    match (decodeUtf8 line).map (parseLine parse) with
    | some (.entry network) => some network
    | _ => none

theorem networks_fileLines : networks (fileLines parse content) = sources parse content := by
  rw [networks, fileLines, filterMap_map]
  rfl

theorem charge_fileLines :
    charge (fileLines parse content) = ((lines content).map fun line => line.length + 1).sum := by
  rw [charge, fileLines, map_map]
  rfl

theorem forall_parsed_iff : (∀ line ∈ fileLines parse content, line.parsed.isSome) ↔ validUtf8 content = true := by
  rw [validUtf8_iff_lines, fileLines, forall_mem_map]
  refine forall₂_congr fun line _ => ?_
  rw [Option.isSome_map, decodeUtf8, isSome_decodeUtf8Loop, validUtf8]

/-- **A source file is read completely or not at all**: it is accepted exactly if it is UTF-8 and within both
limits, whatever the reads are that its bytes come in, and then the batches that are written are its networks in
order.  Before an error only the first of them are written. -/
theorem streamSourceFile_ok_iff (limits : SourceFileLimits) {reader : Reader} (hsize : reader.content.length < u64Max) :
    ((∃ stats, (streamSourceFile parse limits reader).1 = .ok stats) ↔ validUtf8 reader.content = true ∧
        ((lines reader.content).map fun line => line.length + 1).sum ≤ limits.maxBytes ∧
        (sources parse reader.content).length ≤ limits.maxEntries) ∧
    (∀ stats, (streamSourceFile parse limits reader).1 = .ok stats →
      (streamSourceFile parse limits reader).2.flatten = sources parse reader.content ∧
        stats.entries = (sources parse reader.content).length) ∧
    (streamSourceFile parse limits reader).2.flatten <+: sources parse reader.content := by
  have hagrees := streamLoop_agrees parse limits ⟨reader, 0, ⟨0, 0⟩, [], []⟩ (Nat.lt_succ_self _) hsize
    (Nat.zero_le _) rfl
  change Agrees (streamSourceFile parse limits reader) (networks (fileLines parse reader.content))
    (streamLines limits (fileLines parse reader.content) 0 []) at hagrees
  rw [networks_fileLines] at hagrees
  have haccepted : ∀ result, streamLines limits (fileLines parse reader.content) 0 [] = .ok result ↔
      (validUtf8 reader.content = true ∧
        ((lines reader.content).map fun line => line.length + 1).sum ≤ limits.maxBytes ∧
        (sources parse reader.content).length ≤ limits.maxEntries) ∧ result = sources parse reader.content := by
    intro result
    rw [streamLines_eq_ok_iff limits (Nat.zero_le _) (Nat.zero_le _), forall_parsed_iff, charge_fileLines,
      networks_fileLines,
      length_nil, Nat.zero_add, Nat.zero_add, nil_append, and_assoc, and_assoc]
  cases hlines : streamLines limits (fileLines parse reader.content) 0 [] with
  | error err =>
    -- nothing is accepted
    rw [hlines] at hagrees
    obtain ⟨hresult, hfirst⟩ := hagrees
    refine ⟨⟨fun ⟨stats, hstats⟩ => ?_, fun h => ?_⟩, fun stats hstats => ?_, hfirst⟩
    · cases hresult.symm.trans hstats
    · cases hlines.symm.trans ((haccepted _).mpr ⟨h, rfl⟩)
    · cases hresult.symm.trans hstats
  | ok result =>
    obtain ⟨haccept, rfl⟩ := (haccepted _).mp hlines
    rw [hlines] at hagrees
    obtain ⟨⟨stats, hstats, hentries⟩, hwritten⟩ := hagrees
    refine ⟨⟨fun _ => haccept, fun _ => ⟨stats, hstats⟩⟩, fun stats' hstats' => ⟨hwritten, ?_⟩, hwritten ▸ prefix_rfl⟩
    cases hstats.symm.trans hstats'
    exact hentries

/-- A line with a comment that ends with a carriage return and a newline, in two reads. -/
def crlfFile : Reader :=
  [⟨[0x3a, 0x3a, 0x23], List.cons_ne_nil _ _⟩, ⟨[0x62, carriageReturn, newline], List.cons_ne_nil _ _⟩]

/-- One line that is an address, with as many bytes as the limit has, and not one less. -/
theorem streamSourceFile_ok_at_limit :
    let parse : ParseInet := fun text => if text = [':', ':'] then some (.v6 0 128) else none
    ((∃ stats, (streamSourceFile parse ⟨1, 5⟩ crlfFile).1 = .ok stats) ∧
      (streamSourceFile parse ⟨1, 5⟩ crlfFile).2.flatten = [.v6 0 128]) ∧
      ¬ ∃ stats, (streamSourceFile parse ⟨1, 4⟩ crlfFile).1 = .ok stats := by
  intro parse
  have hsize : crlfFile.content.length < u64Max := by decide
  have hsources : sources parse crlfFile.content = [.v6 0 128] := by decide
  obtain ⟨haccept, hwritten, _⟩ := streamSourceFile_ok_iff parse ⟨1, 5⟩ hsize
  obtain ⟨stats, hstats⟩ := haccept.mpr ⟨by decide, by decide, by decide⟩
  refine ⟨⟨⟨stats, hstats⟩, (hwritten stats hstats).1.trans hsources⟩, fun h => ?_⟩
  have hcharge := ((streamSourceFile_ok_iff parse ⟨1, 4⟩ hsize).1.mp h).2.1
  revert hcharge
  decide

end Wings.Firewall.SourceReader
