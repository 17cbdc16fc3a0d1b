import Everarch.Client.BufStream
import Everarch.Client.SearchResults
import Everarch.Times

/-!
# The watch of an index as text

What `evr_watch_index` writes for a changed seed, and how `evr_attri_read_watch` reads it: a line with
the ref of the index, the seed and the time of the change.

* `WatchLinesLemmas.time_line`: a time that is written has its place in a line.
* `WatchLinesLemmas.loop_change`: one line is one call of the visitor.

Results: `watch_lines_read`.
-/

namespace Everarch

/-! ## Writing -/

/-- `struct evr_modified_seed`. -/
structure ModifiedSeed where
  indexRef : BlobRef
  seed : ClaimRef
  changeTime : Nat

/-- What `evr_watch_index` writes for an entry of its queue, none where it panics. -/
def watchIndexLine (strftime : Nat → List Char) (m : ModifiedSeed) : Option (List Char) :=
  (timeToIso8601 strftime maxTimeIso8601Size m.changeTime).map fun time =>
    fmtBlobRef m.indexRef ++ ' ' :: (fmtClaimRef m.seed ++ ' ' :: (time ++ ['\n']))

/-- What it writes for one entry after the other. -/
def watchIndexLines (strftime : Nat → List Char) : List ModifiedSeed → List Char
  | [] => []
  | m :: mods =>
    match watchIndexLine strftime m with
    | none => []
    | some line => line ++ watchIndexLines strftime mods

/-- All that `evr_watch_index` writes. -/
def watchIndexResponse (strftime : Nat → List Char) (mods : List ModifiedSeed) : List Char :=
  respondStatus true none ++ watchIndexLines strftime mods

/-! ## Reading -/

section Reading

variable {σ : Type}

/-- The loop of `evr_attri_read_watch`. The refs hold what was read before. -/
def readWatchLoop (timegm : List Char → Option Int)
    (visit : σ → BlobRef → ClaimRef → Int → Res × σ) :
    Nat → BlobRef → ClaimRef → σ → BufRead → Res × σ
  | 0, _, _, s, _ => (.error, s)
  | fuel + 1, indexRef, seed, s, b =>
    match b.readLine with
    | .error .end_ => (.ok, s)
    | .error _ => (.error, s)
    | .ok (line, b') =>
      if line.dropLast.length ≤ blobRefStrLen + 1 + claimRefStrLen + 1 + 1 then (.error, s)
      else
        let (indexRes, indexRef) := parseBlobRef indexRef (cText (line.dropLast.take blobRefStrLen))
        if indexRes ≠ .ok then (.error, s)
        else
          let rest := line.dropLast.drop (blobRefStrLen + 1)
          let (seedRes, seed) := parseClaimRef seed (cText (rest.take claimRefStrLen))
          if seedRes ≠ .ok then (.error, s)
          else
            match timeFromIso8601 timegm (cText (rest.drop (claimRefStrLen + 1))) with
            | none => (.error, s)
            | some lastModified =>
              match visit s indexRef seed lastModified with
              | (.end_, s) => (.end_, s)
              | (.ok, s) => readWatchLoop timegm visit fuel indexRef seed s b'
              | (_, s) => (.error, s)

/-- `evr_attri_read_watch`. Each line takes one byte or more of what can be read. -/
def attriReadWatch (timegm : List Char → Option Int)
    (visit : σ → BlobRef → ClaimRef → Int → Res × σ) (indexRef : BlobRef) (seed : ClaimRef) (s : σ)
    (b : BufRead) : Res × σ :=
  match attriReadStatus b with
  | .error _ => (.error, s)
  | .ok b' => readWatchLoop timegm visit (b'.stream.length + 1) indexRef seed s b'

/-- The calls for one change after the other. -/
def visitChanges (visit : σ → BlobRef → ClaimRef → Int → Res × σ) : List ModifiedSeed → σ → Res × σ
  | [], s => (.ok, s)
  | m :: mods, s =>
    match visit s m.indexRef m.seed m.changeTime with
    | (.end_, s) => (.end_, s)
    | (.ok, s) => visitChanges visit mods s
    | (_, s) => (.error, s)

end Reading

/-- The length of a line without its newline. -/
def watchLineLen : Nat := blobRefStrLen + 1 + claimRefStrLen + 1 + 27

/-- What the C library does with the time of a change, which is before the year 10000. -/
structure WatchTime (strftime : Nat → List Char) (timegm : List Char → Option Int) (t : Nat) :
    Prop where
  before : t < year10000 * 1000
  lib : IsoSecond strftime timegm (t / 1000)
  plain : ∀ c ∈ strftime (t / 1000), c ≠ '\n' ∧ c ≠ '\x00'

namespace WatchLinesLemmas

open SearchResultsLemmas TimesLemmas RefTextLemmas

variable {strftime : Nat → List Char} {timegm : List Char → Option Int} {t n fuel : Nat}
  {m : ModifiedSeed} {mods : List ModifiedSeed} {b : BufRead} {rest : List Char} {σ : Type}

/-- A time that is written has its place in a line, and is read from there. -/
theorem time_line (h : WatchTime strftime timegm t) :
    ∃ time, timeToIso8601 strftime maxTimeIso8601Size t = some time ∧ time.length = 27 ∧
      timeFromIso8601 timegm time = some (t : Int) ∧ ∀ c ∈ time, c ≠ '\n' ∧ c ≠ '\x00' := by
  obtain ⟨base, hbase, htext⟩ := h.lib.text
  have hinverse := h.lib.inverse
  have hplain := h.plain
  rw [htext] at hinverse hplain
  have hms : t % 1000 * 1000 < 10 ^ secondFractionDigits :=
    Nat.mul_lt_mul_of_pos_right (Nat.mod_lt t (by decide)) (by decide)
  have hfrac := length_fmtFraction hms
  have hdigits := isDigit_fmtFraction (t % 1000 * 1000)
  have hlen : (base ++ ['Z']).length = 20 := by
    rw [List.length_append, hbase, List.length_singleton]
  refine ⟨base ++ '.' :: (fmtFraction (t % 1000 * 1000) ++ ['Z']), ?_, ?_, ?_, ?_⟩
  · simp [timeToIso8601, htext, hbase, maxTimeIso8601Size, secondFractionDigits]
  · simp [hbase, hfrac, secondFractionDigits]
  · rw [timeFromIso8601_parts timegm base '.' 'Z' hfrac,
      if_pos ⟨rfl, List.all_eq_true.mpr hdigits, rfl⟩, hinverse, ofDigits_fmtFraction,
      Nat.mul_div_cancel _ (by decide)]
    simp only [Option.map_some, Option.some.injEq]
    have hbefore := h.before
    unfold year10000 at hbefore
    have hsum : ((t / 1000 : Nat) : Int) * 1000 + (t % 1000 : Nat) = t := by omega
    rw [hsum]
    exact Int.bmod_eq_of_le (by omega) (by omega)
  · intro c hc
    rcases List.mem_append.mp hc with hc | hc
    · exact hplain c (List.mem_append_left _ hc)
    · rcases List.mem_cons.mp hc with rfl | hc
      · decide
      · rcases List.mem_append.mp hc with hc | hc
        · have hdigit := hdigits c hc
          refine ⟨?_, ?_⟩
          · rintro rfl
            cases hdigit
          · rintro rfl
            cases hdigit
        · rw [List.mem_singleton.mp hc]
          decide

theorem fmtBlobRef_plain {key : BlobRef} {c : Char} (h : c ∈ fmtBlobRef key) :
    c ≠ '\n' ∧ c ≠ '\x00' := by
  rcases List.mem_append.mp h with hmark | hhex
  · have hplain : (blobRefStrPrefix.all fun c => c != '\n' && c != '\x00') = true := by
      decide +kernel
    simpa using List.all_eq_true.mp hplain c hmark
  · refine ⟨?_, (fmtHexBytes_plain hhex).2⟩
    rintro rfl
    exact absurd (fmtHexBytes_plain hhex).1 (by decide)

theorem not_mem_of_plain {text : List Char} (h : ∀ c ∈ text, c ≠ '\n' ∧ c ≠ '\x00') :
    '\n' ∉ text ∧ '\x00' ∉ text :=
  ⟨fun hc => (h _ hc).1 rfl, fun hc => (h _ hc).2 rfl⟩

/-- The parts of a line, at their places. -/
structure LineText (timegm : List Char → Option Int) (m : ModifiedSeed) (text : List Char) : Prop where
  length : text.length = watchLineLen
  newline : '\n' ∉ text
  indexRef : cText (text.take blobRefStrLen) = fmtBlobRef m.indexRef
  seed : cText ((text.drop (blobRefStrLen + 1)).take claimRefStrLen) = fmtClaimRef m.seed
  time : timeFromIso8601 timegm
    (cText ((text.drop (blobRefStrLen + 1)).drop (claimRefStrLen + 1))) = some (m.changeTime : Int)

theorem line_text (h : WatchTime strftime timegm m.changeTime) :
    ∃ text, watchIndexLine strftime m = some (text ++ ['\n']) ∧ LineText timegm m text := by
  obtain ⟨time, htime, hlength, hread, hplain⟩ := time_line h
  have hindex := not_mem_of_plain fun c (hc : c ∈ fmtBlobRef m.indexRef) => fmtBlobRef_plain hc
  have hseed : '\n' ∉ fmtClaimRef m.seed ∧ '\x00' ∉ fmtClaimRef m.seed :=
    ⟨fun hc => absurd (fmtClaimRef_plain hc).1 (by decide), fun hc => (fmtClaimRef_plain hc).2 rfl⟩
  have hclean := not_mem_of_plain hplain
  have hindexLen := length_fmtBlobRef m.indexRef
  have hseedLen := length_fmtClaimRef m.seed
  have hdrop : (fmtBlobRef m.indexRef ++ ' ' :: (fmtClaimRef m.seed ++ ' ' :: time)).drop
      (blobRefStrLen + 1) = fmtClaimRef m.seed ++ ' ' :: time := by
    rw [← List.drop_drop, List.drop_left' hindexLen]
    rfl
  refine ⟨fmtBlobRef m.indexRef ++ ' ' :: (fmtClaimRef m.seed ++ ' ' :: time), ?_, ?_, ?_, ?_, ?_, ?_⟩
  · simp [watchIndexLine, htime]
  · simp only [List.length_append, List.length_cons, hindexLen, hseedLen, hlength, watchLineLen]
    omega
  · simp [hindex.1, hseed.1, hclean.1]
  · rw [List.take_left' hindexLen, cText_eq hindex.2]
  · rw [hdrop, List.take_left' hseedLen, cText_eq hseed.2]
  · rw [hdrop, ← List.drop_drop, List.drop_left' hseedLen]
    exact (cText_eq hclean.2).symm ▸ hread

/-- One line is one call of the visitor. -/
theorem loop_change {text : List Char} (visit : σ → BlobRef → ClaimRef → Int → Res × σ)
    (indexRef : BlobRef) (seed : ClaimRef) (s : σ) (hat : At n (text ++ '\n' :: rest) fuel b)
    (htext : LineText timegm m text) (hfit : watchLineLen + 1 < n) :
    ∃ fuel' b', At n rest fuel' b' ∧ readWatchLoop timegm visit fuel indexRef seed s b =
      match visit s m.indexRef m.seed m.changeTime with
      | (.end_, s) => (.end_, s)
      | (.ok, s) => readWatchLoop timegm visit fuel' m.indexRef m.seed s b'
      | (_, s) => (.error, s) := by
  cases fuel with
  | zero => exact absurd hat.enough (Nat.not_lt_zero _)
  | succ fuel =>
    obtain ⟨b', hline, hat'⟩ := at_line hat htext.newline (htext.length.symm ▸ hfit)
    refine ⟨fuel, b', hat', ?_⟩
    have hlong : ¬ text.length ≤ blobRefStrLen + 1 + claimRefStrLen + 1 + 1 := by
      rw [htext.length, watchLineLen]
      omega
    rw [readWatchLoop, hline]
    simp only [List.dropLast_concat, if_neg hlong, htext.indexRef, parseBlobRef_fmtBlobRef,
      htext.seed, parseClaimRef_fmtClaimRef, htext.time, ne_eq, not_true_eq_false, if_false]

/-- The connection has ended, perhaps inside of a line. -/
theorem loop_end (visit : σ → BlobRef → ClaimRef → Int → Res × σ) (indexRef : BlobRef)
    (seed : ClaimRef) (s : σ) (hat : At n rest fuel b) (hcut : '\n' ∉ rest)
    (hfit : rest.length + 1 < n) : readWatchLoop timegm visit fuel indexRef seed s b = (.ok, s) := by
  cases fuel with
  | zero => exact absurd hat.enough (Nat.not_lt_zero _)
  | succ fuel =>
    have hmiss : ∀ k, k + 1 < b.bufSize → b.stream[k]? ≠ some '\n' := by
      intro k _ hk
      rw [hat.stream] at hk
      exact hcut (List.mem_of_getElem? hk)
    have hread : b.readUntil '\n' = .error .end_ := by
      have hmissed := BufStreamLemmas.readUntilLoop_missed hat.valid (BufRead.passed_zero b _) hmiss
        (Nat.lt_succ_self b.unread.length)
      rw [if_neg] at hmissed
      · exact hmissed
      · rw [hat.stream, hat.size]
        exact fun h => absurd h.2 (Nat.not_le.mpr hfit)
    have hline : b.readLine = .error .end_ := by rw [BufRead.readLine, hread]
    rw [readWatchLoop, hline]

theorem loop_changes (visit : σ → BlobRef → ClaimRef → Int → Res × σ) (indexRef : BlobRef)
    (seed : ClaimRef) (s : σ) {cut : List Char}
    (hat : At n (watchIndexLines strftime mods ++ cut) fuel b)
    (htimes : ∀ m ∈ mods, WatchTime strftime timegm m.changeTime) (hcut : '\n' ∉ cut)
    (hfit : cut.length + 1 < n) (hroom : watchLineLen + 1 < n) :
    readWatchLoop timegm visit fuel indexRef seed s b = visitChanges visit mods s := by
  induction mods generalizing fuel indexRef seed s b with
  | nil => exact loop_end visit indexRef seed s hat hcut hfit
  | cons m mods ih =>
    obtain ⟨text, hline, htext⟩ := line_text (htimes m List.mem_cons_self)
    rw [watchIndexLines, hline] at hat
    dsimp only at hat
    rw [List.append_assoc, List.append_assoc, List.singleton_append] at hat
    obtain ⟨fuel', b', hat', hloop⟩ := loop_change visit indexRef seed s hat htext hroom
    rw [hloop, visitChanges]
    cases visit s m.indexRef m.seed m.changeTime with
    | mk res s' =>
      cases res with
      | ok => exact ih _ _ _ hat' fun m' hm' => htimes m' (List.mem_cons_of_mem _ hm')
      | _ => rfl

end WatchLinesLemmas

open WatchLinesLemmas SearchResultsLemmas in
/-- However the bytes of a watch arrive, its reader is called for each change in the order in which
they were written, and for no change of which the line was cut off when the connection ended. -/
theorem watch_lines_read {σ : Type} (strftime : Nat → List Char) (timegm : List Char → Option Int)
    (visit : σ → BlobRef → ClaimRef → Int → Res × σ) (indexRef : BlobRef) (seed : ClaimRef) (s : σ)
    (b : BufRead) (mods : List ModifiedSeed) (cut : List Char) (hb : b.Valid)
    (hsent : b.stream = watchIndexResponse strftime mods ++ cut)
    (htimes : ∀ m ∈ mods, WatchTime strftime timegm m.changeTime) (hcut : '\n' ∉ cut)
    (hfit : cut.length ≤ watchLineLen) (hroom : watchLineLen + 1 < b.bufSize) :
    attriReadWatch timegm visit indexRef seed s b = visitChanges visit mods s := by
  have hat : At b.bufSize (['O', 'K'] ++ '\n' :: (watchIndexLines strftime mods ++ cut))
      (b.stream.length + 1) b := ⟨hb, rfl, hsent.trans rfl, hsent ▸ Nat.lt_succ_self _⟩
  obtain ⟨b', hstatus, hat'⟩ := at_line hat (by decide)
    (Nat.lt_of_le_of_lt (by decide) hroom)
  have hstart : At b.bufSize (watchIndexLines strftime mods ++ cut) (b'.stream.length + 1) b' :=
    ⟨hat'.valid, hat'.size, hat'.stream, hat'.stream ▸ Nat.lt_succ_self _⟩
  rw [attriReadWatch, attriReadStatus, hstatus]
  exact loop_changes visit indexRef seed s hstart htimes hcut
    (Nat.lt_of_le_of_lt (Nat.succ_le_succ hfit) hroom) hroom

/-- A change at the start of 2024, and a line that is cut off. -/
theorem watch_lines_read_new_year :
    attriReadWatch newYearTimegm (fun s _ _ t => (.ok, s ++ [t])) (Vector.replicate _ 0)
      (Vector.replicate _ 0) [] (createBufRead 12 (watchIndexResponse newYearStrftime
        [⟨Vector.replicate _ 7, Vector.replicate _ 9, 1704067200042⟩] ++ ['s', 'h', 'a']) []) =
      (.ok, [1704067200042]) := by
  have htime : WatchTime newYearStrftime newYearTimegm 1704067200042 := by
    refine ⟨by decide, ⟨⟨"2024-01-01T00:00:00".toList, by decide +kernel, by decide +kernel⟩,
      by decide +kernel⟩, fun c hc => ?_⟩
    have hall : (newYearStrftime (1704067200042 / 1000)).all
        (fun c => c != '\n' && c != '\x00') = true := by decide +kernel
    simpa using List.all_eq_true.mp hall c hc
  exact watch_lines_read newYearStrftime newYearTimegm _ _ _ _ _
    [⟨Vector.replicate _ 7, Vector.replicate _ 9, 1704067200042⟩] ['s', 'h', 'a']
    (BufRead.valid_create _ _ _) (BufRead.stream_create _ _ _)
    (fun m hm => List.mem_singleton.mp hm ▸ htime) (by decide) (by decide) (by decide)

end Everarch
