import Everarch.Client.BufRead
import Everarch.Keys
import Mathlib.Data.List.TakeWhile

/-!
# Search results as text

What evr-attr-index writes for a search, and how `evr_attri_read_search` reads it. A result is a
line with its claim ref and a line for each attribute: a tabulator, the key, an equals sign and the
value. Nothing is escaped, and a line has to fit into the buffer of the reader.

Result: `search_results_iff`.
-/

namespace Everarch

/-! ## Writing -/

/-- `struct evr_attr_tuple`. -/
structure SearchAttr where
  key : List Char
  val : List Char
  key_terminated : '\x00' ∉ key
  val_terminated : '\x00' ∉ val

/-- The arguments of `evr_respond_search_result`. -/
structure SearchResult where
  ref : ClaimRef
  attrs : List SearchAttr

/-- `evr_respond_status`. -/
def respondStatus (ok : Bool) (msg : Option (List Char)) : List Char :=
  (if ok then "OK" else "ERROR").toList ++ msg.elim [] (' ' :: ·) ++ ['\n']

/-- `evr_respond_search_status`. -/
def respondSearchStatus (parseRes : Res) (parseError : Option (List Char)) : List Char :=
  if parseRes ≠ .ok then respondStatus false parseError else respondStatus true none

/-- `evr_respond_message_end`. -/
def respondMessageEnd : List Char :=
  ['\n']

/-- A line of `evr_respond_search_result` for an attribute. -/
def attrLine (a : SearchAttr) : List Char :=
  '\t' :: (a.key ++ '=' :: a.val) ++ ['\n']

/-- `evr_respond_search_result`. -/
def respondSearchResult (r : SearchResult) : List Char :=
  fmtClaimRef r.ref ++ '\n' :: r.attrs.flatMap attrLine

/-- All that is written for a search. -/
def searchResponse (results : List SearchResult) : List Char :=
  respondSearchStatus .ok none ++ (results.flatMap respondSearchResult ++ respondMessageEnd)

/-! ## Reading -/

/-- `visit_seed` and `visit_attr`, with the state behind `ctx`. -/
structure SearchVisitor (σ : Type) where
  visitSeed : σ → ClaimRef → Res × σ
  visitAttr : σ → ClaimRef → List Char → List Char → Res × σ

/-- A C string of at most these characters. -/
def cText (s : List Char) : List Char :=
  s.takeWhile (· ≠ '\x00')

/-- `evr_attri_read_status`. A status other than OK is only logged. -/
def attriReadStatus (b : BufRead) : Except Res BufRead :=
  match b.readLine with
  | .error _ => .error .error
  | .ok (_, b') => .ok b'

section Reading

variable {σ : Type}

/-- The loop of `evr_attri_read_search`. `seed` holds what was there before where `hasSeed` is not
set. -/
def readSearchLoop (v : SearchVisitor σ) :
    Nat → Bool → ClaimRef → Bool → σ → BufRead → Res × σ × BufRead
  | 0, _, _, _, s, b => (.error, s, b)
  | fuel + 1, hasSeed, seed, end_, s, b =>
    match b.readLine with
    | .error _ => (.error, s, b)
    | .ok (line, b') =>
      if line.head? = some '\t' then
        if hasSeed = false then (.error, s, b')
        else if '=' ∉ line.drop 1 then (.error, s, b')
        else
          let key := cText ((line.drop 1).takeWhile (· ≠ '='))
          -- the newline at the end of the line is replaced
          let val := cText (((line.drop 1).dropWhile (· ≠ '=')).drop 1).dropLast
          let (visitRes, s') := v.visitAttr s seed key val
          if visitRes ≠ .ok then (.error, s', b')
          else readSearchLoop v fuel hasSeed seed end_ s' b'
      else if line.head? = some '\n' then (if end_ then .end_ else .ok, s, b')
      else
        let (parseRes, seed') := parseClaimRef seed (cText line.dropLast)
        if parseRes ≠ .ok then (.error, s, b')
        else
          let (visitRes, s') := v.visitSeed s seed'
          if visitRes = .end_ then readSearchLoop v fuel true seed' true s' b'
          else if visitRes ≠ .ok then (.error, s', b')
          else readSearchLoop v fuel true seed' end_ s' b'

/-- `evr_attri_read_search`. Each line takes one byte or more of what can be read. -/
def attriReadSearch (v : SearchVisitor σ) (seed : ClaimRef) (s : σ) (b : BufRead) :
    Res × σ × BufRead :=
  match attriReadStatus b with
  | .error _ => (.error, s, b)
  | .ok b' => readSearchLoop v (b'.stream.length + 1) false seed false s b'

end Reading

/-! ## What is visited -/

/-- A call of `visit_seed` or of `visit_attr`. -/
inductive SearchVisit where
  | seed (ref : ClaimRef)
  | attr (ref : ClaimRef) (key val : List Char)

/-- Callbacks that keep what they are called with. -/
def recordVisits : SearchVisitor (List SearchVisit) where
  visitSeed s ref := (.ok, s ++ [.seed ref])
  visitAttr s ref key val := (.ok, s ++ [.attr ref key val])

/-- The calls that stand for a result. -/
def SearchResult.visits (r : SearchResult) : List SearchVisit :=
  .seed r.ref :: r.attrs.map fun a => .attr r.ref a.key a.val

/-- The attribute has a line of its own that a buffer of this size can hold. -/
structure SearchAttr.Plain (n : Nat) (a : SearchAttr) : Prop where
  eq_notMem : '=' ∉ a.key
  key_line : '\n' ∉ a.key
  val_line : '\n' ∉ a.val
  fits : a.key.length + a.val.length + 3 < n

/-- All lines fit into the buffer, and the characters that structure a line only stand where they
do. -/
structure FitsSearch (n : Nat) (results : List SearchResult) : Prop where
  status : 3 < n
  seeds : results ≠ [] → claimRefStrLen + 1 < n
  attrs : ∀ r ∈ results, ∀ a ∈ r.attrs, a.Plain n

namespace SearchResultsLemmas

section Text

variable {k v : List Char}

theorem cText_eq {s : List Char} (h : '\x00' ∉ s) : cText s = s :=
  List.takeWhile_eq_self_iff.mpr fun _ hc => decide_eq_true (ne_of_mem_of_not_mem hc h)

theorem mem_cText {s : List Char} {c : Char} (h : c ∈ cText s) : c ∈ s :=
  (List.takeWhile_prefix _).subset h

theorem length_cText_le (s : List Char) : (cText s).length ≤ s.length :=
  (List.takeWhile_prefix _).length_le

/-- The key ends at the first equals sign. -/
theorem takeWhile_key (hk : '=' ∉ k) : (k ++ '=' :: v).takeWhile (· ≠ '=') = k := by
  rw [List.takeWhile_append_of_pos fun c hc => decide_eq_true (ne_of_mem_of_not_mem hc hk),
    List.takeWhile_cons_of_neg (by decide), List.append_nil]

/-- The value is what follows, without the newline. -/
theorem dropWhile_val (hk : '=' ∉ k) :
    (((k ++ '=' :: (v ++ ['\n'])).dropWhile (· ≠ '=')).drop 1).dropLast = v := by
  rw [List.dropWhile_append_of_pos fun c hc => decide_eq_true (ne_of_mem_of_not_mem hc hk),
    List.dropWhile_cons_of_neg (by decide), List.drop_one, List.tail_cons, List.dropLast_concat]

end Text

/-! ## What a reader can visit -/

/-- A visit that comes from a line that a buffer of this size can hold. -/
def Carried (n : Nat) : SearchVisit → Prop
  | .seed _ => claimRefStrLen + 1 < n
  | .attr _ key val => '=' ∉ key ∧ '\n' ∉ key ∧ '\n' ∉ val ∧ key.length + val.length + 3 < n

/-- A line that starts with a tabulator is one of an attribute. -/
theorem carried_attr {n : Nat} {text : List Char} (hnl : '\n' ∉ text)
    (hlen : (text ++ ['\n']).length < n) (htab : (text ++ ['\n']).head? = some '\t')
    (heq : '=' ∈ (text ++ ['\n']).drop 1) (ref : ClaimRef) :
    Carried n (.attr ref (cText (((text ++ ['\n']).drop 1).takeWhile (· ≠ '=')))
      (cText ((((text ++ ['\n']).drop 1).dropWhile (· ≠ '=')).drop 1).dropLast)) := by
  cases text with
  | nil => cases htab
  | cons c text =>
    rw [List.cons_append, List.drop_one, List.tail_cons] at heq ⊢
    have heq' : '=' ∈ text := by
      rcases List.mem_append.mp heq with h | h
      · exact h
      · exact absurd (List.mem_singleton.mp h) (by decide)
    obtain ⟨k, v, rfl, hk⟩ := List.eq_append_cons_of_mem heq'
    have hline : k ++ '=' :: v ++ ['\n'] = k ++ '=' :: (v ++ ['\n']) := List.append_assoc _ _ _
    rw [hline, takeWhile_key hk, dropWhile_val hk]
    have hmem : '\n' ∉ k ∧ '\n' ∉ v := by
      constructor
      · exact fun h => hnl (List.mem_cons_of_mem _ (List.mem_append_left _ h))
      · exact fun h => hnl (List.mem_cons_of_mem _ (List.mem_append_right _
          (List.mem_cons_of_mem _ h)))
    refine ⟨fun h => hk (mem_cText h), fun h => hmem.1 (mem_cText h),
      fun h => hmem.2 (mem_cText h), ?_⟩
    have hkey := length_cText_le k
    have hval := length_cText_le v
    simp only [List.length_append, List.length_cons, List.length_nil] at hlen
    omega

/-- A claim ref has its full length. -/
theorem length_of_parseClaimRef {seed : ClaimRef} {s : List Char}
    (h : (parseClaimRef seed s).1 = .ok) : s.length = claimRefStrLen := by
  unfold parseClaimRef at h
  split_ifs at h with hlen
  exact not_not.mp hlen

theorem carried_seed {n : Nat} {text : List Char} {seed : ClaimRef}
    (hlen : (text ++ ['\n']).length < n)
    (h : (parseClaimRef seed (cText (text ++ ['\n']).dropLast)).1 = .ok) :
    claimRefStrLen + 1 < n := by
  rw [List.dropLast_concat] at h
  have hfull := length_of_parseClaimRef h
  have hle := length_cText_le text
  rw [List.length_append, List.length_singleton] at hlen
  omega

section Loop

variable {n fuel : Nat} {hasSeed end_ : Bool} {seed : ClaimRef} {s : List SearchVisit}
  {b b' : BufRead} {line : List Char}

/-- A round of the loop, with callbacks that accept everything. -/
theorem loop_line (hline : b.readLine = .ok (line, b')) :
    readSearchLoop recordVisits (fuel + 1) hasSeed seed end_ s b =
      if line.head? = some '\t' then
        if hasSeed = false then (.error, s, b')
        else if '=' ∈ line.drop 1 then
          readSearchLoop recordVisits fuel hasSeed seed end_
            (s ++ [.attr seed (cText ((line.drop 1).takeWhile (· ≠ '=')))
              (cText (((line.drop 1).dropWhile (· ≠ '=')).drop 1).dropLast)]) b'
        else (.error, s, b')
      else if line.head? = some '\n' then (if end_ then .end_ else .ok, s, b')
      else if (parseClaimRef seed (cText line.dropLast)).1 = .ok then
        readSearchLoop recordVisits fuel true (parseClaimRef seed (cText line.dropLast)).2 end_
          (s ++ [.seed (parseClaimRef seed (cText line.dropLast)).2]) b'
      else (.error, s, b') := by
  rw [readSearchLoop, hline]
  simp only [recordVisits, ite_not, ne_eq, not_true_eq_false, reduceCtorEq, if_false]

/-- All that is visited comes from lines. -/
theorem loop_carried (hb : b.Valid) (hn : b.bufSize = n) (hs : ∀ visit ∈ s, Carried n visit) :
    ∀ visit ∈ (readSearchLoop recordVisits fuel hasSeed seed end_ s b).2.1, Carried n visit := by
  induction fuel generalizing hasSeed end_ seed s b with
  | zero => exact hs
  | succ fuel ih =>
    cases hread : b.readLine with
    | error e =>
      rw [readSearchLoop, hread]
      exact hs
    | ok read =>
      obtain ⟨line, b'⟩ := read
      rw [loop_line hread]
      obtain ⟨hb', hsize, -, hlen, text, rfl, hnl⟩ := BufRead.readLine_sound hb hread
      rw [hn] at hlen
      have hmore : ∀ {visit}, Carried n visit → ∀ x ∈ s ++ [visit], Carried n x :=
        fun hvisit x hx => (List.mem_append.mp hx).elim (hs x)
          fun h => List.mem_singleton.mp h ▸ hvisit
      split_ifs with htab hfirst heq hempty hend hparse
      · exact hs
      · exact ih hb' (hsize.trans hn) (hmore (carried_attr hnl hlen htab heq seed))
      · exact hs
      · exact hs
      · exact hs
      · exact ih hb' (hsize.trans hn) (hmore (carried_seed hlen hparse))
      · exact hs

end Loop

/-! ## Lines that fit -/

/-- What follows is still to be read, and the loop has rounds enough for it. -/
structure At (n : Nat) (rest : List Char) (fuel : Nat) (b : BufRead) : Prop where
  valid : b.Valid
  size : b.bufSize = n
  stream : b.stream = rest
  enough : rest.length < fuel

section Fitting

variable {n fuel : Nat} {b : BufRead} {rest : List Char} (hasSeed end_ : Bool) (seed : ClaimRef)
  (s : List SearchVisit)

/-- One line is read. -/
theorem at_line {text : List Char} (h : At n (text ++ '\n' :: rest) (fuel + 1) b)
    (htext : '\n' ∉ text) (hfit : text.length + 1 < n) :
    ∃ b', b.readLine = .ok (text ++ ['\n'], b') ∧ At n rest fuel b' := by
  obtain ⟨b', hline, hvalid, hsize, hstream⟩ :=
    BufRead.readLine_complete h.valid h.stream htext (h.size ▸ hfit)
  have henough := h.enough
  rw [List.length_append, List.length_cons] at henough
  exact ⟨b', hline, hvalid, hsize.trans h.size, hstream, by omega⟩

theorem loop_attr {a : SearchAttr} (h : At n (attrLine a ++ rest) fuel b) (ha : a.Plain n) :
    ∃ fuel' b', At n rest fuel' b' ∧ readSearchLoop recordVisits fuel true seed end_ s b =
      readSearchLoop recordVisits fuel' true seed end_ (s ++ [.attr seed a.key a.val]) b' := by
  cases fuel with
  | zero => exact absurd h.enough (Nat.not_lt_zero _)
  | succ fuel =>
    have hsplit : attrLine a ++ rest = ('\t' :: (a.key ++ '=' :: a.val)) ++ '\n' :: rest := by
      rw [attrLine, List.append_assoc, List.singleton_append]
    have htext : '\n' ∉ '\t' :: (a.key ++ '=' :: a.val) := by
      simp [ha.key_line, ha.val_line]
    have hfit : ('\t' :: (a.key ++ '=' :: a.val)).length + 1 < n := by
      have hfits := ha.fits
      simp only [List.length_cons, List.length_append]
      omega
    obtain ⟨b', hline, hat⟩ := at_line (hsplit ▸ h) htext hfit
    have hdrop : ('\t' :: (a.key ++ '=' :: a.val) ++ ['\n']).drop 1 =
        a.key ++ '=' :: (a.val ++ ['\n']) := List.append_assoc _ _ _
    refine ⟨fuel, b', hat, ?_⟩
    have htab : ('\t' :: (a.key ++ '=' :: a.val) ++ ['\n']).head? = some '\t' := rfl
    rw [loop_line hline, if_pos htab, if_neg (by decide), hdrop,
      if_pos (List.mem_append_right _ List.mem_cons_self), takeWhile_key ha.eq_notMem,
      dropWhile_val ha.eq_notMem, cText_eq a.key_terminated, cText_eq a.val_terminated]

theorem loop_attrs {attrs : List SearchAttr} (h : At n (attrs.flatMap attrLine ++ rest) fuel b)
    (hattrs : ∀ a ∈ attrs, a.Plain n) :
    ∃ fuel' b', At n rest fuel' b' ∧ readSearchLoop recordVisits fuel true seed end_ s b =
      readSearchLoop recordVisits fuel' true seed end_
        (s ++ attrs.map fun a => .attr seed a.key a.val) b' := by
  induction attrs generalizing fuel s b with
  | nil => exact ⟨fuel, b, h, by rw [List.map_nil, List.append_nil]⟩
  | cons a attrs ih =>
    rw [List.flatMap_cons, List.append_assoc] at h
    obtain ⟨fuel', b', hat, hloop⟩ := loop_attr end_ seed s h (hattrs a List.mem_cons_self)
    obtain ⟨fuel'', b'', hat', hloop'⟩ := ih (s ++ [.attr seed a.key a.val]) hat
      fun a' ha' => hattrs a' (List.mem_cons_of_mem _ ha')
    refine ⟨fuel'', b'', hat', hloop.trans (hloop'.trans ?_)⟩
    rw [List.map_cons, ← List.append_cons]

theorem loop_seed {ref : ClaimRef} (h : At n (fmtClaimRef ref ++ '\n' :: rest) fuel b)
    (hfit : claimRefStrLen + 1 < n) :
    ∃ fuel' b', At n rest fuel' b' ∧ readSearchLoop recordVisits fuel hasSeed seed end_ s b =
      readSearchLoop recordVisits fuel' true ref end_ (s ++ [.seed ref]) b' := by
  cases fuel with
  | zero => exact absurd h.enough (Nat.not_lt_zero _)
  | succ fuel =>
    have hplain : ∀ {c}, isSpaceChar c = true → c ∉ fmtClaimRef ref := fun hspace hc =>
      Bool.noConfusion (hspace.symm.trans (RefTextLemmas.fmtClaimRef_plain hc).1)
    have hlen := RefTextLemmas.length_fmtClaimRef ref
    obtain ⟨b', hline, hat⟩ := at_line h (hplain rfl) (hlen.symm ▸ hfit)
    have hhead : ∀ {c}, isSpaceChar c = true →
        (fmtClaimRef ref ++ ['\n']).head? ≠ some c := by
      intro c hspace heq
      refine hplain hspace (List.mem_of_head? ?_)
      rw [← heq, List.head?_append_of_ne_nil]
      exact List.ne_nil_of_length_eq_add_one hlen
    have hterminated : '\x00' ∉ fmtClaimRef ref := fun hc =>
      (RefTextLemmas.fmtClaimRef_plain hc).2 rfl
    refine ⟨fuel, b', hat, ?_⟩
    rw [loop_line hline, if_neg (hhead rfl), if_neg (hhead rfl), List.dropLast_concat,
      cText_eq hterminated, RefTextLemmas.parseClaimRef_fmtClaimRef, if_pos rfl]

theorem loop_results {results : List SearchResult}
    (h : At n (results.flatMap respondSearchResult ++ rest) fuel b)
    (hresults : FitsSearch n results) :
    ∃ fuel' b' hasSeed' seed', At n rest fuel' b' ∧
      readSearchLoop recordVisits fuel hasSeed seed end_ s b =
        readSearchLoop recordVisits fuel' hasSeed' seed' end_
          (s ++ results.flatMap SearchResult.visits) b' := by
  induction results generalizing fuel hasSeed seed s b with
  | nil => exact ⟨fuel, b, hasSeed, seed, h, by rw [List.flatMap_nil, List.append_nil]⟩
  | cons r results ih =>
    rw [List.flatMap_cons, respondSearchResult, List.append_assoc, List.append_assoc,
      List.cons_append] at h
    obtain ⟨fuel', b', hat, hloop⟩ := loop_seed hasSeed end_ seed s h
      (hresults.seeds (List.cons_ne_nil _ _))
    obtain ⟨fuel'', b'', hat', hloop'⟩ := loop_attrs end_ r.ref
      (s ++ [.seed r.ref]) hat (hresults.attrs r List.mem_cons_self)
    obtain ⟨fuel₃, b₃, hasSeed', seed', hat₃, hloop₃⟩ := ih true r.ref
      (s ++ [.seed r.ref] ++ r.attrs.map fun a => .attr r.ref a.key a.val) hat'
      ⟨hresults.status, fun _ => hresults.seeds (List.cons_ne_nil _ _),
        fun r' hr' => hresults.attrs r' (List.mem_cons_of_mem _ hr')⟩
    refine ⟨fuel₃, b₃, hasSeed', seed', hat₃, hloop.trans (hloop'.trans (hloop₃.trans ?_))⟩
    rw [List.flatMap_cons, SearchResult.visits, List.append_assoc, List.append_assoc,
      List.singleton_append, List.cons_append]

theorem loop_end (h : At n respondMessageEnd fuel b) (hfit : 1 < n) :
    ∃ b', readSearchLoop recordVisits fuel hasSeed seed false s b = (.ok, s, b') := by
  cases fuel with
  | zero => exact absurd h.enough (Nat.not_lt_zero _)
  | succ fuel =>
    have hline : At n ([] ++ '\n' :: []) (fuel + 1) b := h
    obtain ⟨b', hline, -⟩ := at_line hline List.not_mem_nil hfit
    exact ⟨b', (loop_line hline).trans ((if_neg (by decide)).trans (if_pos rfl))⟩

end Fitting

section Search

variable {results : List SearchResult} {b : BufRead} {seed : ClaimRef}

theorem searchResponse_eq (results : List SearchResult) :
    searchResponse results = ['O', 'K'] ++ '\n' ::
      (results.flatMap respondSearchResult ++ respondMessageEnd) :=
  rfl

/-- What fits is read. -/
theorem exact_of_fits (hb : b.Valid) (hsent : b.stream = searchResponse results)
    (hfits : FitsSearch b.bufSize results) :
    (attriReadSearch recordVisits seed [] b).1 = .ok ∧
      (attriReadSearch recordVisits seed [] b).2.1 = results.flatMap SearchResult.visits := by
  have hat : At b.bufSize (searchResponse results) ((searchResponse results).length + 1) b :=
    ⟨hb, rfl, hsent, Nat.lt_succ_self _⟩
  obtain ⟨b', hstatus, hat'⟩ := at_line (searchResponse_eq results ▸ hat) (by decide) hfits.status
  have hstart : At b.bufSize b'.stream (b'.stream.length + 1) b' :=
    ⟨hat'.valid, hat'.size, rfl, Nat.lt_succ_self _⟩
  obtain ⟨fuel, b'', hasSeed, seed', hat'', hloop⟩ :=
    loop_results false false seed [] (hat'.stream ▸ hstart) hfits
  obtain ⟨b₃, hend⟩ := loop_end hasSeed seed' ([] ++ results.flatMap SearchResult.visits) hat''
    (Nat.lt_trans (by decide) hfits.status)
  have hread : attriReadSearch recordVisits seed [] b =
      (.ok, [] ++ results.flatMap SearchResult.visits, b₃) := by
    unfold attriReadSearch attriReadStatus
    rw [hstatus]
    dsimp only
    rw [hat'.stream, hloop, hend]
  rw [hread]
  exact ⟨rfl, rfl⟩

/-- What is read as it was written has fitted. -/
theorem fits_of_exact (hb : b.Valid) (hsent : b.stream = searchResponse results)
    (hok : (attriReadSearch recordVisits seed [] b).1 = .ok)
    (hvisits : (attriReadSearch recordVisits seed [] b).2.1 =
      results.flatMap SearchResult.visits) : FitsSearch b.bufSize results := by
  unfold attriReadSearch attriReadStatus at hok hvisits
  cases hread : b.readLine with
  | error e =>
    rw [hread] at hok
    cases hok
  | ok read =>
    obtain ⟨line, b'⟩ := read
    rw [hread] at hvisits
    obtain ⟨hb', hsize, hstream, hlen, text, rfl, hnl⟩ := BufRead.readLine_sound hb hread
    rw [hsent, searchResponse_eq, List.append_assoc, List.singleton_append] at hstream
    obtain ⟨rfl, -⟩ := BufRead.text_unique (by decide) hnl hstream
    have hcarried : ∀ visit ∈ (readSearchLoop recordVisits (b'.stream.length + 1) false seed false
        [] b').2.1, Carried b.bufSize visit :=
      loop_carried hb' hsize fun _ h => absurd h List.not_mem_nil
    dsimp only at hvisits
    rw [hvisits] at hcarried
    have hvisit : ∀ r ∈ results, ∀ visit ∈ r.visits, Carried b.bufSize visit :=
      fun r hr visit h => hcarried visit (List.mem_flatMap.mpr ⟨r, hr, h⟩)
    refine ⟨hlen, fun hne => ?_, fun r hr a ha => ?_⟩
    · obtain ⟨r, hr⟩ := List.exists_mem_of_ne_nil _ hne
      exact hvisit r hr _ List.mem_cons_self
    · obtain ⟨heq, hkey, hval, hfits⟩ := hvisit r hr _
        (List.mem_cons_of_mem _ (List.mem_map_of_mem ha))
      exact ⟨heq, hkey, hval, hfits⟩

end Search

end SearchResultsLemmas

/-! ## Results -/

open SearchResultsLemmas

/-- However the bytes of a search arrive, the reader visits what was written and ends well if and
only if each key is free of equals signs and newlines, each value is free of newlines and each line
fits into the buffer. -/
theorem search_results_iff (results : List SearchResult) (seed : ClaimRef) (b : BufRead)
    (hb : b.Valid) (hsent : b.stream = searchResponse results) :
    ((attriReadSearch recordVisits seed [] b).1 = .ok ∧
        (attriReadSearch recordVisits seed [] b).2.1 = results.flatMap SearchResult.visits) ↔
      FitsSearch b.bufSize results :=
  ⟨fun h => fits_of_exact hb hsent h.1 h.2, exact_of_fits hb hsent⟩

/-- An attribute of one seed. -/
def oneAttr (a : SearchAttr) : List SearchResult :=
  [⟨Vector.replicate _ 0, [a]⟩]

/-- The attribute k with the value v. -/
def plainAttr : SearchAttr :=
  ⟨['k'], ['v'], by decide, by decide⟩

theorem search_results_one :
    (attriReadSearch recordVisits (Vector.replicate _ 0) []
        (createBufRead 12 (searchResponse (oneAttr plainAttr)) [2, 1, 40])).1 = .ok ∧
      (attriReadSearch recordVisits (Vector.replicate _ 0) []
        (createBufRead 12 (searchResponse (oneAttr plainAttr)) [2, 1, 40])).2.1 =
          [.seed (Vector.replicate _ 0), .attr (Vector.replicate _ 0) ['k'] ['v']] := by
  refine (search_results_iff _ _ _ (BufRead.valid_create _ _ _) (BufRead.stream_create _ _ _)).mpr
    ⟨by decide, fun _ => by decide, fun r hr a ha => ?_⟩
  cases List.mem_singleton.mp hr
  cases List.mem_singleton.mp ha
  exact ⟨by decide, by decide, by decide, by decide⟩

/-- A value of two lines is not read back. -/
theorem second_line_lost :
    ¬∀ (results : List SearchResult) (seed : ClaimRef) (chunks : List Nat),
      (attriReadSearch recordVisits seed []
          (createBufRead 12 (searchResponse results) chunks)).1 = .ok ∧
        (attriReadSearch recordVisits seed []
          (createBufRead 12 (searchResponse results) chunks)).2.1 =
            results.flatMap SearchResult.visits := by
  intro h
  obtain ⟨hok, hvisits⟩ :=
    h (oneAttr ⟨['k'], ['v', '\n', 'w'], by decide, by decide⟩) (Vector.replicate _ 0) []
  have hfits := fits_of_exact (BufRead.valid_create _ _ _) (BufRead.stream_create _ _ _) hok hvisits
  exact (hfits.attrs _ List.mem_cons_self _ List.mem_cons_self).val_line (by decide)

end Everarch
