import Everarch.AttrIndex.HttpSearch

/-!
# Searches over a connection

`evr_work_search_cmd` writes what it finds as it comes, so that the reply of a search that fails has
already begun. Only the empty line at its end says that it is complete. What the system has taken
of it may still be lost on the way, so that the server does not know what its peer has read.

* `SearchReplyLemmas.not_emptyLine_results`: no result looks like the end of a reply.
* `SearchReplyLemmas.work_eq`: what a search sends, as one text.
* `SearchReplyLemmas.emptyLine_of_ok`: a reader that ends well has come to an empty line.

Results: `search_seen_whole`.
-/

namespace Everarch

/-! ## The server -/

/-- A connection: what the system has taken for the peer, and how many bytes more it takes before a
write fails. -/
structure SearchSocket where
  sent : List Char
  room : Nat

/-- `write_n`. -/
def SearchSocket.write (s : SearchSocket) (text : List Char) : Bool × SearchSocket :=
  if text.length ≤ s.room then (true, ⟨s.sent ++ text, s.room - text.length⟩)
  else (false, ⟨s.sent ++ text.take s.room, 0⟩)

/-- `evr_work_search_cmd`. A connection without a query has none for it. -/
def workSearchCmd (env : SearchEnv) (query : Option (List Char)) (s : SearchSocket) :
    Res × SearchSocket :=
  match env.currentIndex with
  | .end_ => (.end_, s)
  | .ok =>
    if !env.dbOpens then (.error, s)
    else
      match attrQueryClaims env (query.getD [])
          (fun s error => s.write (respondStatus error.isNone (error.map env.errorText)))
          (fun s r => s.write (respondSearchResult r)) s with
      | (false, s) => (.error, s)
      | (true, s) =>
        match s.write respondMessageEnd with
        | (false, s) => (.error, s)
        | (true, s) => (if env.dbCloses then .ok else .error, s)
  | _ => (.error, s)

/-- What a search has to say about a query, with the end of a reply where no row is missing. -/
def SearchEnv.reply (env : SearchEnv) (q : ParsedQuery) : List Char :=
  if (env.rows q).2 then searchResponse (env.rows q).1
  else ['O', 'K', '\n'] ++ (env.rows q).1.flatMap respondSearchResult

namespace SearchReplyLemmas

open BufRead SearchResultsLemmas

variable {n : Nat} {b b' : BufRead} {text more rest line : List Char} {s : SearchSocket}
  {results : List SearchResult}

/-! ### Empty lines -/

/-- There is a line without text. -/
def EmptyLine (s : List Char) : Prop :=
  ∃ pre post, s = pre ++ '\n' :: post ∧ (pre = [] ∨ pre.getLast? = some '\n')

theorem EmptyLine.append (h : EmptyLine text) (more : List Char) : EmptyLine (text ++ more) := by
  obtain ⟨pre, post, rfl, hpre⟩ := h
  exact ⟨pre, post ++ more, by simp, hpre⟩

/-- A line in front. -/
theorem EmptyLine.cons (h : EmptyLine rest) (line : List Char) :
    EmptyLine (line ++ '\n' :: rest) := by
  obtain ⟨pre, post, rfl, hpre⟩ := h
  refine ⟨line ++ '\n' :: pre, post, by simp, .inr ?_⟩
  rcases hpre with rfl | hlast
  · simp
  · rw [List.getLast?_append, List.getLast?_cons, hlast]
    rfl

theorem emptyLine_of_line (hline : '\n' ∉ line) (hne : line ≠ [])
    (h : EmptyLine (line ++ '\n' :: rest)) : EmptyLine rest := by
  obtain ⟨pre, post, heq, hpre⟩ := h
  by_cases hmem : '\n' ∈ pre
  · obtain ⟨front, back, rfl, hfront⟩ := List.eq_append_cons_of_mem hmem
    rw [List.append_assoc, List.cons_append] at heq
    obtain ⟨rfl, hrest⟩ := text_unique hline hfront heq
    refine ⟨back, post, hrest, ?_⟩
    cases back with
    | nil => exact .inl rfl
    | cons c back =>
      rcases hpre with hnil | hlast
      · simp at hnil
      · rw [List.getLast?_append, List.getLast?_cons_cons] at hlast
        exact .inr (by simpa using hlast)
  · obtain ⟨rfl, -⟩ := text_unique hline hmem heq
    rcases hpre with hnil | hlast
    · exact absurd hnil hne
    · exact absurd (List.mem_of_getLast? hlast) hmem

theorem newline_notMem_ref (ref : ClaimRef) : '\n' ∉ fmtClaimRef ref := by
  intro hc
  have hspace : isSpaceChar '\n' = true := rfl
  exact Bool.noConfusion (hspace.symm.trans (RefTextLemmas.fmtClaimRef_plain hc).1)

theorem not_emptyLine_attrs {attrs : List SearchAttr} (hattrs : ∀ a ∈ attrs, a.Plain n)
    (hrest : ¬ EmptyLine rest) : ¬ EmptyLine (attrs.flatMap attrLine ++ rest) := by
  induction attrs with
  | nil => exact hrest
  | cons a attrs ih =>
    have ha := hattrs a List.mem_cons_self
    have hsplit : (a :: attrs).flatMap attrLine ++ rest =
        ('\t' :: (a.key ++ '=' :: a.val)) ++ '\n' :: (attrs.flatMap attrLine ++ rest) := by
      rw [List.flatMap_cons, attrLine, List.append_assoc, List.append_assoc, List.singleton_append]
    rw [hsplit]
    intro h
    refine ih (fun a' ha' => hattrs a' (List.mem_cons_of_mem _ ha')) (emptyLine_of_line ?_ ?_ h)
    · simp [ha.key_line, ha.val_line]
    · exact List.cons_ne_nil _ _

/-- No result looks like the end of a reply. -/
theorem not_emptyLine_results (hattrs : ∀ r ∈ results, ∀ a ∈ r.attrs, a.Plain n) :
    ¬ EmptyLine (results.flatMap respondSearchResult) := by
  induction results with
  | nil =>
    rintro ⟨pre, post, heq, -⟩
    exact List.append_ne_nil_of_right_ne_nil pre (List.cons_ne_nil _ _) heq.symm
  | cons r results ih =>
    rw [List.flatMap_cons, respondSearchResult, List.append_assoc, List.cons_append]
    intro h
    have hne : fmtClaimRef r.ref ≠ [] :=
      List.ne_nil_of_length_eq_add_one (RefTextLemmas.length_fmtClaimRef r.ref)
    refine not_emptyLine_attrs (hattrs r List.mem_cons_self) ?_
      (emptyLine_of_line (newline_notMem_ref r.ref) hne h)
    exact ih fun r' hr' => hattrs r' (List.mem_cons_of_mem _ hr')

/-! ### The connection -/

/-- A connection takes what it has room for, and says whether that was all. -/
theorem write_eq (s : SearchSocket) (text : List Char) :
    s.write text = (decide (text.length ≤ s.room),
      ⟨s.sent ++ text.take s.room, s.room - text.length⟩) := by
  unfold SearchSocket.write
  split_ifs with hroom
  · rw [List.take_of_length_le hroom, decide_eq_true hroom]
  · rw [decide_eq_false hroom, Nat.sub_eq_zero_of_le (Nat.le_of_not_le hroom)]

/-- Two texts in turn are sent as one. -/
theorem write_append (s : SearchSocket) (text more : List Char) :
    s.write (text ++ more) =
      match s.write text with
      | (false, s) => (false, s)
      | (true, s) => s.write more := by
  simp only [write_eq, List.length_append]
  by_cases hroom : text.length ≤ s.room
  · rw [decide_eq_true hroom]
    dsimp only
    rw [List.take_append, List.take_of_length_le hroom, List.append_assoc, Nat.sub_add_eq]
    congr 1
    rw [decide_eq_decide]
    omega
  · rw [decide_eq_false hroom]
    dsimp only
    have hshort : s.room ≤ text.length := Nat.le_of_not_le hroom
    rw [decide_eq_false (by omega), List.take_append_of_le_length hshort,
      Nat.sub_eq_zero_of_le hshort, Nat.sub_eq_zero_of_le (Nat.le_add_right_of_le hshort)]

/-- Results that are sent one after the other. -/
theorem visitEach_socket (results : List SearchResult) (s : SearchSocket) :
    visitEach (fun s r => s.write (respondSearchResult r)) s results =
      s.write (results.flatMap respondSearchResult) := by
  induction results generalizing s with
  | nil => exact (write_eq s []).symm ▸ by simp [visitEach]
  | cons r results ih =>
    rw [List.flatMap_cons, write_append, visitEach]
    rcases s.write (respondSearchResult r) with ⟨sent, s'⟩
    cases sent with
    | false => rfl
    | true => exact ih s'

/-- What a search writes for a query that can be parsed. -/
theorem attrQueryClaims_socket {env : SearchEnv} {queryStr : List Char} {q : ParsedQuery}
    (hparse : (attrParseQuery env.query queryStr).query = some q) (s : SearchSocket) :
    attrQueryClaims env queryStr
        (fun s error => s.write (respondStatus error.isNone (error.map env.errorText)))
        (fun s r => s.write (respondSearchResult r)) s =
      match s.write (['O', 'K', '\n'] ++ (env.rows q).1.flatMap respondSearchResult) with
      | (false, s) => (false, s)
      | (true, s) => ((env.rows q).2, s) := by
  cases hquery : attrParseQuery env.query queryStr with
  | mk parsed error =>
    rw [hquery] at hparse
    obtain rfl := hparse
    have hstatus : respondStatus (none : Option QueryError).isNone
        ((none : Option QueryError).map env.errorText) = ['O', 'K', '\n'] := rfl
    rw [attrQueryClaims, hquery]
    dsimp only
    rw [hstatus, write_append]
    rcases s.write ['O', 'K', '\n'] with ⟨sent, s'⟩
    cases sent with
    | false => rfl
    | true =>
      dsimp only
      rw [visitEach_socket]
      rcases s'.write ((env.rows q).1.flatMap respondSearchResult) with ⟨sent', s''⟩
      cases sent' <;> rfl

/-- A search that can be answered sends the results, and its end if they are all there. -/
theorem work_eq {env : SearchEnv} {query : Option (List Char)} {q : ParsedQuery}
    (hindex : env.currentIndex = .ok) (hopens : env.dbOpens = true)
    (hparse : (attrParseQuery env.query (query.getD [])).query = some q) (s : SearchSocket) :
    workSearchCmd env query s =
      (if (env.rows q).2 && (s.write (env.reply q)).1 && env.dbCloses then .ok else .error,
        (s.write (env.reply q)).2) := by
  have hreply : env.reply q = if (env.rows q).2 then
      (['O', 'K', '\n'] ++ (env.rows q).1.flatMap respondSearchResult) ++ respondMessageEnd
      else ['O', 'K', '\n'] ++ (env.rows q).1.flatMap respondSearchResult := by
    rw [List.append_assoc]
    rfl
  rw [workSearchCmd, hindex, hopens, attrQueryClaims_socket hparse, hreply]
  generalize ['O', 'K', '\n'] ++ (env.rows q).1.flatMap respondSearchResult = body
  dsimp only
  rw [if_neg (by decide)]
  cases (env.rows q).2 with
  | false =>
    rw [if_neg Bool.false_ne_true]
    rcases s.write body with ⟨sent, s'⟩
    cases sent <;> rfl
  | true =>
    rw [if_pos rfl, write_append]
    rcases s.write body with ⟨sent, s'⟩
    cases sent with
    | false => rfl
    | true =>
      by_cases hend : respondMessageEnd.length ≤ s'.room <;> simp [write_eq, hend]

/-! ### The reader -/

/-- A reader that ends well has come to an empty line. -/
theorem emptyLine_of_ok {fuel : Nat} {hasSeed end_ : Bool} {seed : ClaimRef}
    {visits : List SearchVisit} (hb : b.Valid)
    (hok : (readSearchLoop recordVisits fuel hasSeed seed end_ visits b).1 = .ok) :
    EmptyLine b.stream := by
  induction fuel generalizing hasSeed seed visits b with
  | zero => cases hok
  | succ fuel ih =>
    cases hread : b.readLine with
    | error e =>
      rw [readSearchLoop, hread] at hok
      cases hok
    | ok read =>
      obtain ⟨line, b'⟩ := read
      rw [loop_line hread] at hok
      obtain ⟨hb', -, hstream, -, text, rfl, hnl⟩ := readLine_sound hb hread
      rw [List.append_assoc, List.singleton_append] at hstream
      rw [hstream]
      split_ifs at hok with htab hfirst heq hempty hend hparse
      · exact (ih hb' hok).cons text
      · cases text with
        | nil => exact ⟨[], b'.stream, rfl, .inl rfl⟩
        | cons c text => exact absurd (Option.some.inj hempty ▸ List.mem_cons_self) hnl
      · exact (ih hb' hok).cons text

/-- A part of the beginning of a text is a part of what is in front of its last character. -/
theorem eq_or_take_of_prefix {stream text : List Char} {c : Char} (h : stream <+: text ++ [c]) :
    stream = text ++ [c] ∨ stream = text.take stream.length := by
  rcases List.prefix_concat_iff.mp h with hall | hpre
  · exact .inl hall
  · exact .inr (List.prefix_iff_eq_take.mp hpre)

/-- What ends too early is not read well. -/
theorem not_ok_of_cut {seed : ClaimRef} {visits : List SearchVisit} {k : Nat} (hb : b.Valid)
    (hattrs : ∀ r ∈ results, ∀ a ∈ r.attrs, a.Plain n)
    (hcut : b.stream = (['O', 'K', '\n'] ++ results.flatMap respondSearchResult).take k) :
    (attriReadSearch recordVisits seed visits b).1 ≠ .ok := by
  intro hok
  unfold attriReadSearch attriReadStatus at hok
  cases hread : b.readLine with
  | error e =>
    rw [hread] at hok
    cases hok
  | ok read =>
    obtain ⟨line, b'⟩ := read
    rw [hread] at hok
    obtain ⟨hb', -, hstream, -, text, rfl, hnl⟩ := readLine_sound hb hread
    have hwhole := List.take_append_drop k (['O', 'K', '\n'] ++ results.flatMap respondSearchResult)
    rw [← hcut, hstream, List.append_assoc, List.append_assoc, List.singleton_append] at hwhole
    obtain ⟨-, hrest⟩ := @text_unique _ ['O', 'K'] _ _ hnl (by decide) hwhole
    have hend := (emptyLine_of_ok hb' hok).append
      ((['O', 'K', '\n'] ++ results.flatMap respondSearchResult).drop k)
    rw [hrest] at hend
    exact not_emptyLine_results hattrs hend

end SearchReplyLemmas

/-! ## Results -/

open SearchReplyLemmas SearchResultsLemmas

/-- Whatever pieces a reply comes in and however much of it arrives, the reader ends well if and
only if no row was missing and the whole reply has arrived, and visits every result then. The server
ends well if the system takes the whole reply and it can close its index. -/
theorem search_seen_whole (env : SearchEnv) (query : Option (List Char)) (q : ParsedQuery)
    (s : SearchSocket) (seed : ClaimRef) (b : BufRead) (hindex : env.currentIndex = .ok)
    (hopens : env.dbOpens = true)
    (hparse : (attrParseQuery env.query (query.getD [])).query = some q) (hnew : s.sent = [])
    (hb : b.Valid) (harrived : b.stream <+: (workSearchCmd env query s).2.sent)
    (hfits : FitsSearch b.bufSize (env.rows q).1) :
    ((attriReadSearch recordVisits seed [] b).1 = .ok ↔
      (env.rows q).2 = true ∧ b.stream = searchResponse (env.rows q).1) ∧
    ((attriReadSearch recordVisits seed [] b).1 = .ok →
      (attriReadSearch recordVisits seed [] b).2.1 =
        (env.rows q).1.flatMap SearchResult.visits) ∧
    ((workSearchCmd env query s).1 = .ok ↔ (env.rows q).2 = true ∧
      (searchResponse (env.rows q).1).length ≤ s.room ∧ env.dbCloses = true) := by
  rw [work_eq hindex hopens hparse, write_eq, hnew, List.nil_append] at harrived
  rw [work_eq hindex hopens hparse, write_eq]
  have hwhole : b.stream <+: env.reply q := harrived.trans (List.take_prefix _ _)
  unfold SearchEnv.reply at hwhole ⊢
  have hresponse : searchResponse (env.rows q).1 =
      (['O', 'K', '\n'] ++ (env.rows q).1.flatMap respondSearchResult) ++ ['\n'] := by
    rw [searchResponse_eq, List.append_assoc]
    rfl
  have hcut (h : b.stream = (['O', 'K', '\n'] ++
      (env.rows q).1.flatMap respondSearchResult).take b.stream.length) :
      (attriReadSearch recordVisits seed [] b).1 ≠ .ok := not_ok_of_cut hb hfits.attrs h
  cases hrows : (env.rows q).2 with
  | false =>
    rw [hrows, if_neg Bool.false_ne_true] at hwhole
    have hbad := hcut (List.prefix_iff_eq_take.mp hwhole)
    simp [hbad]
  | true =>
    rw [hrows, if_pos rfl, hresponse] at hwhole
    have hserver : (env.rows q).2 && decide ((searchResponse (env.rows q).1).length ≤ s.room) &&
        env.dbCloses = true ↔ (searchResponse (env.rows q).1).length ≤ s.room ∧
          env.dbCloses = true := by
      simp [hrows]
    rcases eq_or_take_of_prefix hwhole with hall | hpart
    · obtain ⟨hok, hvisits⟩ := @exact_of_fits _ b seed hb (hall.trans hresponse.symm) hfits
      simp [hok, hvisits, hall.trans hresponse.symm]
    · have hbad := hcut hpart
      have hne : b.stream ≠ searchResponse (env.rows q).1 := by
        intro heq
        have hlen := congrArg List.length hpart
        rw [heq, hresponse, List.length_take, List.length_append, List.length_singleton] at hlen
        omega
      simp [hbad, hne]

/-- An index that finds the attribute k with the value v for any query. -/
def oneRowSearch : SearchEnv where
  query := ⟨0, fun _ => none, Vector.replicate _ 0⟩
  currentIndex := .ok
  dbOpens := true
  dbCloses := true
  rows _ := (oneAttr plainAttr, true)
  errorText _ := []
  heap := Vector.replicate _ 0
  mem _ := '\x00'

/-- What arrives of the reply, in pieces. -/
def oneRowReply (arrived : Nat) : BufRead :=
  createBufRead 12 ((searchResponse (oneAttr plainAttr)).take arrived) [2, 1, 40]

/-- The server ends well with all of its reply taken, the reader only if the last byte arrives. -/
theorem search_seen_whole_one :
    (workSearchCmd oneRowSearch none ⟨[], 1000⟩).1 = .ok ∧
    (attriReadSearch recordVisits (Vector.replicate _ 0) []
        (oneRowReply (searchResponse (oneAttr plainAttr)).length)).2.1 =
      [.seed (Vector.replicate _ 0), .attr (Vector.replicate _ 0) ['k'] ['v']] ∧
    (attriReadSearch recordVisits (Vector.replicate _ 0) []
        (oneRowReply ((searchResponse (oneAttr plainAttr)).length - 1))).1 ≠ .ok := by
  have hfits : FitsSearch (2 ^ 12) (oneAttr plainAttr) := by
    refine ⟨by decide, fun _ => by decide, fun r hr a ha => ?_⟩
    cases List.mem_singleton.mp hr
    cases List.mem_singleton.mp ha
    exact ⟨by decide, by decide, by decide, by decide⟩
  have hsmall : (searchResponse (oneAttr plainAttr)).length ≤ 1000 := by decide +kernel
  have hsent : (workSearchCmd oneRowSearch none ⟨[], 1000⟩).2.sent =
      searchResponse (oneAttr plainAttr) := by
    rw [work_eq rfl rfl (show (attrParseQuery oneRowSearch.query []).query = some
      (buildAttrQuery none none 0 defaultAttrQueryLimit 0) from rfl), write_eq]
    exact List.take_of_length_le hsmall
  have hseen (arrived : Nat) := search_seen_whole oneRowSearch none
    (buildAttrQuery none none 0 defaultAttrQueryLimit 0) ⟨[], 1000⟩ (Vector.replicate _ 0)
    (oneRowReply arrived) rfl rfl rfl rfl (BufRead.valid_create _ _ _)
    (hsent ▸ (BufRead.stream_create _ _ _).symm ▸ List.take_prefix _ _) hfits
  have hpos : 0 < (searchResponse (oneAttr plainAttr)).length := Nat.succ_pos _
  obtain ⟨hok, hvisits, hserver⟩ := hseen (searchResponse (oneAttr plainAttr)).length
  obtain ⟨hcut, -⟩ := hseen ((searchResponse (oneAttr plainAttr)).length - 1)
  have hstream (arrived : Nat) : (oneRowReply arrived).stream =
      (searchResponse (oneAttr plainAttr)).take arrived := BufRead.stream_create _ _ _
  refine ⟨hserver.mpr ⟨rfl, hsmall, rfl⟩,
    hvisits (hok.mpr ⟨rfl, (hstream _).trans List.take_length⟩), fun h => ?_⟩
  have hlen := congrArg List.length ((hstream _).symm.trans (hcut.mp h).2)
  rw [List.length_take] at hlen
  have hlast : (searchResponse (oneRowSearch.rows (buildAttrQuery none none 0
      defaultAttrQueryLimit 0)).1).length = (searchResponse (oneAttr plainAttr)).length := rfl
  omega

end Everarch
