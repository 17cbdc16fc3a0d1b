import Everarch.AttrIndex.Gate

/-!
# Lines out of reads

`evr_connection_worker` of evr-attr-index.c keeps one buffer for the lines of a client: a read goes
behind what has been scanned, a newline becomes the zero at the end of a line, and what is behind it
is moved to the start.

* `scanQuery`, `connectionWorker`: the code on its buffer. `evr_work_cmd` may depend on the lines
  before, and it may change the line.
* `splitQuery`: cutting at newlines, with no buffer.
* `QueryLinesLemmas.scan_eq`: the scan of a read works on the lines that are complete with it and
  leaves the others at the start of the buffer.

Result: `connection_lines`.
-/

namespace Everarch

/-! ## The buffer -/

/-- The byte that ends a command. -/
def newline : UInt8 := 0x0a

/-- `query_str` with `query_scanned` as an index, and the lines, each with the zero at its end, that
`evr_work_cmd` has been called with. -/
structure QueryBuf where
  queryStr : Bytes
  queryScanned : Nat
  calls : List Bytes

/-- Bytes that are written inside a buffer. -/
def overwrite (buf : Bytes) (i : Nat) (bs : Bytes) : Bytes :=
  buf.take i ++ bs ++ buf.drop (i + bs.length)

/-- `evr_work_cmd`, out of the lines before and the line: its result and what it leaves of the
line. -/
abbrev WorkCmd := List Bytes → Bytes → Res × Bytes

/-- The loop over the `left` bytes between `query_scanned` and `read_end`. There is a result where
the worker ends. -/
def scanQuery (work : WorkCmd) : Nat → QueryBuf → Option Res × QueryBuf
  | 0, s => (none, s)
  | left + 1, s =>
    if s.queryStr[s.queryScanned]? ≠ some newline then
      scanQuery work left { s with queryScanned := s.queryScanned + 1 }
    else
      let queryStr := s.queryStr.set s.queryScanned 0
      let line := queryStr.take (s.queryScanned + 1)
      let (cmdRes, changed) := work s.calls line
      let queryStr := overwrite queryStr 0 (changed.take s.queryScanned)
      let s := { s with
        queryStr := queryStr
        calls := s.calls ++ [line] }
      if cmdRes = .end_ then (some .ok, s)
      else if cmdRes ≠ .ok then (some .error, s)
      else
        let moved := (queryStr.drop (s.queryScanned + 1)).take left
        scanQuery work left { s with
          queryStr := overwrite queryStr 0 moved
          queryScanned := 0 }

/-- What the worker meets before and in a read. -/
inductive QueryRead where
  /-- it gets at most one byte more than this, or is at the end of the stream -/
  | bytes (n : Nat)
  | fails
  /-- the process is asked to stop -/
  | stops

/-- `evr_connection_worker`. Without a result the worker is about to read. -/
def connectionWorker (work : WorkCmd) :
    List QueryRead → Bytes → QueryBuf → Option Res × QueryBuf
  | [], _, s => (none, s)
  | .stops :: _, _, s => (some .error, s)
  | .fails :: _, _, s => (some .error, s)
  | .bytes n :: reads, stream, s =>
    let maxRead := queryStrSize - s.queryScanned
    if maxRead = 0 then (some .error, s)
    else
      let data := stream.take (min (n + 1) maxRead)
      if data = [] then (some .ok, s)
      else
        match scanQuery work data.length
          { s with queryStr := overwrite s.queryStr s.queryScanned data } with
        | (some res, s) => (some res, s)
        | (none, s) => connectionWorker work reads (stream.drop data.length) s

/-! ## Cutting at newlines -/

/-- The lines that bytes complete behind the start of a line, and the start of a line that they
leave. -/
def splitQuery : Bytes → Bytes → List Bytes × Bytes
  | query, [] => ([], query)
  | query, b :: bs =>
    if b = newline then (query :: (splitQuery [] bs).1, (splitQuery [] bs).2)
    else splitQuery (query ++ [b]) bs

/-- Each line is accepted behind the ones before it. -/
def AcceptsLines (work : WorkCmd) (before lines : List Bytes) : Prop :=
  ∀ pre line post, lines = pre ++ line :: post → (work (before ++ pre) line).1 = .ok

/-- A line as a string. -/
def terminated (line : Bytes) : Bytes := line ++ [0]

namespace QueryLinesLemmas

variable {work : WorkCmd} {query bs bs' : Bytes}

theorem length_overwrite {buf : Bytes} {i : Nat} (h : i + bs.length ≤ buf.length) :
    (overwrite buf i bs).length = buf.length := by
  unfold overwrite
  simp only [List.length_append, List.length_take, List.length_drop]
  omega

theorem overwrite_zero (buf bs : Bytes) : overwrite buf 0 bs = bs ++ buf.drop bs.length := by
  simp [overwrite]

/-- What is behind the bytes that are written stays. -/
theorem drop_overwrite {buf : Bytes} {n : Nat} (h : bs.length ≤ n) :
    (overwrite buf 0 bs).drop n = buf.drop n := by
  rw [overwrite_zero, List.drop_append, List.drop_of_length_le h, List.nil_append, List.drop_drop,
    Nat.add_sub_cancel' h]

theorem acceptsLines_cons {before lines : List Bytes} {line : Bytes} :
    AcceptsLines work before (line :: lines) ↔
      (work before line).1 = .ok ∧ AcceptsLines work (before ++ [line]) lines := by
  constructor
  · intro h
    refine ⟨by simpa using h [] line lines rfl, fun pre l post heq => ?_⟩
    simpa using h (line :: pre) l post (by rw [heq]; rfl)
  · rintro ⟨hline, hrest⟩ pre l post heq
    cases pre with
    | nil =>
      obtain ⟨rfl, rfl⟩ := List.cons.inj heq
      simpa using hline
    | cons first pre =>
      obtain ⟨rfl, rfl⟩ := List.cons.inj heq
      simpa using hrest pre l post rfl

theorem acceptsLines_append {before lines lines' : List Bytes} :
    AcceptsLines work before (lines ++ lines') ↔
      AcceptsLines work before lines ∧ AcceptsLines work (before ++ lines) lines' := by
  induction lines generalizing before with
  | nil =>
    rw [List.nil_append, List.append_nil]
    exact ⟨fun h => ⟨fun pre line post heq => absurd heq (by simp), h⟩, And.right⟩
  | cons line lines ih =>
    rw [List.cons_append, acceptsLines_cons, acceptsLines_cons, ih, List.append_assoc,
      List.singleton_append, and_assoc]

/-! ## Cutting -/

theorem split_append (query bs bs' : Bytes) : splitQuery query (bs ++ bs') =
    ((splitQuery query bs).1 ++ (splitQuery (splitQuery query bs).2 bs').1,
      (splitQuery (splitQuery query bs).2 bs').2) := by
  induction bs generalizing query with
  | nil => rfl
  | cons b bs ih =>
    rw [List.cons_append, splitQuery, splitQuery]
    split
    · rw [ih []]
      rfl
    · exact ih (query ++ [b])

/-- A line without newlines is taken as it is. -/
theorem split_line (query : Bytes) {line : Bytes} (hline : newline ∉ line) :
    splitQuery query line = ([], query ++ line) := by
  induction line generalizing query with
  | nil => rw [splitQuery, List.append_nil]
  | cons b line ih =>
    obtain ⟨hne, hrest⟩ := not_or.mp (mt List.mem_cons.mpr hline)
    rw [splitQuery, if_neg (Ne.symm hne), ih (query ++ [b]) hrest, List.append_assoc]
    rfl

theorem split_lines {lines : List Bytes} {tail : Bytes} (hlines : ∀ l ∈ lines, newline ∉ l)
    (htail : newline ∉ tail) :
    splitQuery [] ((lines.flatMap fun l => l ++ [newline]) ++ tail) = (lines, tail) := by
  induction lines with
  | nil => exact split_line [] htail
  | cons line lines ih =>
    obtain ⟨hline, hrest⟩ := List.forall_mem_cons.mp hlines
    rw [List.flatMap_cons, List.append_assoc, List.append_assoc, split_append,
      split_line [] hline, List.nil_append, List.nil_append, List.singleton_append, splitQuery,
      if_pos rfl, ih hrest]

/-- The start of a line is in the first line, or in what is left. -/
theorem split_first (query bs : Bytes) :
    (∃ line lines, (splitQuery query bs).1 = line :: lines ∧ query.length ≤ line.length) ∨
      query.length ≤ (splitQuery query bs).2.length := by
  induction bs generalizing query with
  | nil => exact .inr (Nat.le_refl _)
  | cons b bs ih =>
    rw [splitQuery]
    split
    · exact .inl ⟨query, _, rfl, Nat.le_refl _⟩
    · have hlen : query.length ≤ (query ++ [b]).length := by simp
      rcases ih (query ++ [b]) with ⟨line, lines, hsplit, hle⟩ | hle
      · exact .inl ⟨line, lines, hsplit, Nat.le_trans hlen hle⟩
      · exact .inr (Nat.le_trans hlen hle)

/-! ## The scan -/

/-- The buffer has the start of a line up to where it is scanned, and the bytes of a read behind. -/
structure Buffered (s : QueryBuf) (query bs : Bytes) : Prop where
  scanned : s.queryScanned = query.length
  bytes : query ++ bs <+: s.queryStr

/-- The scan works on the lines that are complete and leaves the start of the next. -/
theorem scan_eq {s : QueryBuf} (h : Buffered s query bs)
    (haccept : AcceptsLines work s.calls ((splitQuery query bs).1.map terminated)) :
    ∃ s', scanQuery work bs.length s = (none, s') ∧ Buffered s' (splitQuery query bs).2 [] ∧
      s'.queryStr.length = s.queryStr.length ∧
      s'.calls = s.calls ++ (splitQuery query bs).1.map terminated := by
  induction bs generalizing s query with
  | nil => exact ⟨s, rfl, h, rfl, (List.append_nil _).symm⟩
  | cons b bs ih =>
    obtain ⟨behind, hbuf⟩ := h.bytes
    have hscanned := h.scanned
    have hget : s.queryStr[s.queryScanned]? = some b := by
      rw [← hbuf, hscanned, List.append_assoc, List.getElem?_append_right (Nat.le_refl _),
        Nat.sub_self]
      rfl
    rw [List.length_cons, scanQuery, hget]
    rw [splitQuery] at haccept ⊢
    by_cases hb : b = newline
    · rw [if_pos hb] at haccept ⊢
      subst hb
      rw [if_neg (not_not.mpr rfl)]
      have hset : s.queryStr.set s.queryScanned 0 = terminated query ++ (bs ++ behind) := by
        rw [← hbuf, hscanned, List.append_assoc, List.set_append_right _ _ (Nat.le_refl _),
          Nat.sub_self]
        simp [terminated]
      have hline : (s.queryStr.set s.queryScanned 0).take (s.queryScanned + 1) =
          terminated query := by
        rw [hset, hscanned]
        exact List.take_left' (by simp [terminated])
      simp only [hline]
      rw [List.map_cons, acceptsLines_cons] at haccept
      obtain ⟨hok, hrest⟩ := haccept
      generalize work s.calls (terminated query) = out at hok ⊢
      obtain ⟨cmdRes, changed⟩ := out
      simp only at hok ⊢
      subst hok
      rw [if_neg (by decide), if_neg (by decide)]
      -- what the command does to the line does not reach the bytes behind it
      have hchanged : (changed.take s.queryScanned).length ≤ s.queryScanned := List.length_take_le _ _
      have hmoved : ((overwrite (s.queryStr.set s.queryScanned 0) 0
          (changed.take s.queryScanned)).drop (s.queryScanned + 1)).take bs.length = bs := by
        rw [drop_overwrite (Nat.le_succ_of_le hchanged), hset,
          List.drop_left' (by simp [terminated, hscanned]), List.take_left' rfl]
      rw [hmoved]
      have hlen : (terminated query).length + (bs.length + behind.length) = s.queryStr.length := by
        rw [← List.length_append, ← List.length_append, ← hset, List.length_set]
      have hterminated : (terminated query).length = query.length + 1 := List.length_append
      have hlength : (overwrite (s.queryStr.set s.queryScanned 0) 0
          (changed.take s.queryScanned)).length = s.queryStr.length := by
        rw [length_overwrite, List.length_set]
        rw [List.length_set]
        omega
      have hnext : Buffered ⟨overwrite (overwrite (s.queryStr.set s.queryScanned 0) 0
          (changed.take s.queryScanned)) 0 bs, 0, s.calls ++ [terminated query]⟩ [] bs := by
        refine ⟨rfl, ?_⟩
        rw [List.nil_append, overwrite_zero]
        exact List.prefix_append _ _
      obtain ⟨s', hrun, hbuffered, hlength', hcalls⟩ := ih hnext hrest
      refine ⟨s', hrun, hbuffered, hlength'.trans ?_, ?_⟩
      · rw [length_overwrite (by omega), hlength]
      · rw [hcalls, List.append_assoc]
        rfl
    · rw [if_neg hb] at haccept ⊢
      rw [if_pos (fun heq => hb (Option.some.inj heq))]
      have hnext : Buffered { s with queryScanned := s.queryScanned + 1 } (query ++ [b]) bs := by
        refine ⟨?_, ?_⟩
        · rw [List.length_append, List.length_singleton, ← hscanned]
        · rw [List.append_assoc, List.singleton_append]
          exact h.bytes
      exact ih hnext haccept

/-! ## The worker -/

/-- Lines that are shorter than the buffer with their zero. -/
def Short (query stream : Bytes) : Prop :=
  (∀ l ∈ (splitQuery query stream).1, l.length < queryStrSize - 1) ∧
    (splitQuery query stream).2.length < queryStrSize - 1

theorem short_query {stream : Bytes} (h : Short query stream) : query.length < queryStrSize - 1 := by
  rcases split_first query stream with ⟨line, lines, hsplit, hle⟩ | hle
  · have hline := h.1 line (by rw [hsplit]; exact List.mem_cons_self)
    omega
  · exact Nat.lt_of_le_of_lt hle h.2

/-- However the reads cut the stream, the worker works on its lines. -/
theorem worker_eq {stream : Bytes} {reads : List Nat} {s : QueryBuf} (h : Buffered s query [])
    (hsize : s.queryStr.length = queryStrSize) (hshort : Short query stream)
    (haccept : AcceptsLines work s.calls ((splitQuery query stream).1.map terminated))
    (hreads : stream.length < reads.length) :
    ∃ s', connectionWorker work (reads.map .bytes) stream s = (some .ok, s') ∧
      s'.calls = s.calls ++ (splitQuery query stream).1.map terminated := by
  induction reads generalizing s query stream with
  | nil => exact absurd hreads (Nat.not_lt_zero _)
  | cons n reads ih =>
    have hquery := short_query hshort
    have hroom : queryStrSize - s.queryScanned ≠ 0 := by
      rw [h.scanned]
      omega
    rw [List.map_cons, connectionWorker]
    simp only [if_neg hroom]
    generalize hdata : stream.take (min (n + 1) (queryStrSize - s.queryScanned)) = data
    split
    · -- the stream has come to its end
      rename_i hnil
      have hstream : stream = [] := by
        rw [hnil, List.take_eq_nil_iff] at hdata
        rcases hdata with hzero | hstream
        · omega
        · exact hstream
      rw [hstream]
      exact ⟨s, rfl, (List.append_nil _).symm⟩
    · rename_i hne
      have hle : data.length ≤ queryStrSize - s.queryScanned := by
        rw [← hdata, List.length_take]
        omega
      have hstream : stream = data ++ stream.drop data.length := by
        have hprefix : data <+: stream := hdata ▸ List.take_prefix _ _
        obtain ⟨rest, rfl⟩ := hprefix
        rw [List.drop_left]
      have hpos : 0 < data.length := List.length_pos_iff.mpr hne
      rw [hstream, split_append, List.map_append, acceptsLines_append] at haccept
      have hread : Buffered { s with queryStr := overwrite s.queryStr s.queryScanned data }
          query data := by
        obtain ⟨behind, hbuf⟩ := h.bytes
        rw [List.append_nil] at hbuf
        refine ⟨h.scanned, ?_⟩
        show query ++ data <+: overwrite s.queryStr s.queryScanned data
        rw [overwrite, h.scanned, ← hbuf, List.take_left]
        exact List.prefix_append _ _
      obtain ⟨s', hscan, hbuffered, hlength, hcalls⟩ := scan_eq hread haccept.1
      rw [hscan]
      have hsize' : s'.queryStr.length = queryStrSize := by
        rw [hlength, length_overwrite (by omega), hsize]
      have hshort' : Short (splitQuery query data).2 (stream.drop data.length) := by
        rw [Short, hstream, split_append] at hshort
        exact ⟨fun l hl => hshort.1 l (List.mem_append_right _ hl), hshort.2⟩
      have hless : (stream.drop data.length).length < reads.length := by
        rw [List.length_cons] at hreads
        rw [List.length_drop]
        have hlen := congrArg List.length hstream
        rw [List.length_append, List.length_drop] at hlen
        omega
      obtain ⟨s'', hrun, hcalls'⟩ := ih hbuffered hsize' hshort' (by rw [hcalls]; exact haccept.2)
        hless
      refine ⟨s'', hrun, ?_⟩
      conv => rhs; rw [hstream, split_append]
      rw [hcalls', hcalls, List.append_assoc, List.map_append]

end QueryLinesLemmas

open QueryLinesLemmas

/-- For a stream of lines shorter than 8 KiB - 1, and perhaps the start of another, the worker calls
`evr_work_cmd` with each line and nothing else, in their order, however the reads cut the stream and
whatever the buffer held before, as long as no command ends the connection. -/
theorem connection_lines (work : WorkCmd) (lines : List Bytes) (tail queryStr : Bytes)
    (reads : List Nat) (hlines : ∀ l ∈ lines, newline ∉ l ∧ l.length < 8 * 1024 - 1)
    (htail : newline ∉ tail ∧ tail.length < 8 * 1024 - 1)
    (hsize : queryStr.length = queryStrSize) (haccept : AcceptsLines work [] (lines.map terminated))
    (hreads : ((lines.flatMap fun l => l ++ [newline]) ++ tail).length < reads.length) :
    ∃ s, connectionWorker work (reads.map .bytes)
        ((lines.flatMap fun l => l ++ [newline]) ++ tail) ⟨queryStr, 0, []⟩ = (some .ok, s) ∧
      s.calls = lines.map terminated := by
  have hsplit := split_lines (fun l hl => (hlines l hl).1) htail.1
  have hshort : Short [] ((lines.flatMap fun l => l ++ [newline]) ++ tail) := by
    rw [Short, hsplit]
    exact ⟨fun l hl => (hlines l hl).2, htail.2⟩
  obtain ⟨s, hrun, hcalls⟩ := worker_eq (s := ⟨queryStr, 0, []⟩) ⟨rfl, List.nil_prefix⟩ hsize hshort
    (by rw [hsplit]; exact haccept) hreads
  rw [hsplit] at hcalls
  exact ⟨s, hrun, hcalls⟩

/-- Two lines of one byte, each byte in a read of its own. -/
theorem connection_lines_two :
    ∃ s, connectionWorker (fun _ line => (.ok, line)) ((List.replicate 5 0).map .bytes)
        [1, newline, 2, newline] ⟨List.replicate queryStrSize 7, 0, []⟩ = (some .ok, s) ∧
      s.calls = [[1, 0], [2, 0]] :=
  connection_lines (fun _ line => (.ok, line)) [[1], [2]] [] (List.replicate queryStrSize 7)
    (List.replicate 5 0) (by decide) (by decide) List.length_replicate (fun _ _ _ _ => rfl)
    (by decide)

/-- The worker that `IndexConn` describes cuts a read in the same way. -/
theorem IndexConn.scan_lines {Ix : Type} (server : IndexServer Ix) (ix : Ix) (c : IndexConn)
    (bs : Bytes) (h : (c.scan server ix bs).ended = none) :
    (c.scan server ix bs).log.map WorkedLine.line =
        c.log.map WorkedLine.line ++ (splitQuery c.query bs).1 ∧
      (c.scan server ix bs).query = (splitQuery c.query bs).2 := by
  induction bs generalizing c with
  | nil => exact ⟨(List.append_nil _).symm, rfl⟩
  | cons b bs ih =>
    rw [IndexConn.scan] at h ⊢
    split at h
    · rename_i hended
      exact absurd h hended
    · rename_i hopen
      rw [if_neg hopen, splitQuery]
      split at h
      · rename_i hb
        rw [if_pos hb, if_neg (show b ≠ newline from hb)]
        exact ih _ h
      · rename_i hb
        have hline : b = newline := not_not.mp hb
        rw [if_neg hb, if_pos hline]
        obtain ⟨hlog, hquery⟩ := ih _ h
        refine ⟨hlog.trans ?_, hquery⟩
        simp [IndexConn.work]

end Everarch
