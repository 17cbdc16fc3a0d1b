import Everarch.Server.Storage
import Everarch.Sync.Bootstrap

/-!
# Resuming a watch

How `evr_bootstrap_db` and `evr_index_sync_worker` get the claim blobs of a storage over
several runs. A run asks for the blobs from `apply_watch_overlap(last_indexed_claim_ts)`
on, gets the list of these and then what is appended, and may stop between two calls of
`evr_index_claim_set`.

* `applyWatchOverlap`: the overlap is subtracted from a number of milliseconds.
* `IndexSync.step`: the storage and the index.
* `resume_delivers_all_iff`: which histories are delivered whenever the index stops.
-/

namespace Everarch

/-! ## The overlap -/

/-- `watch_overlap`. -/
def watchOverlap : Nat := 10 * 60

/-- `apply_watch_overlap`. -/
def applyWatchOverlap (t : Int) : Nat :=
  if t ≤ watchOverlap then 0 else (t - watchOverlap).toNat

/-! ## The storage and the index -/

/-- What `evr_index_claim_set` makes of a claim blob: it is merged, or refused when its row
is in `claim_set` already, or ignored without a row. -/
inductive ClaimBlobKind where
  | merged
  | refused
  | ignored
deriving DecidableEq

/-- A claim blob of the storage. -/
structure ClaimBlob where
  key : BlobRef
  lastModified : Nat
  kind : ClaimBlobKind
  lastModified_le : lastModified ≤ llongMax
deriving DecidableEq

/-- The orders in which the storage lists blobs. -/
structure ListOrder where
  sort : List ClaimBlob → List ClaimBlob
  perm : ∀ blobs, (sort blobs).Perm blobs
  sorted : ∀ blobs, (sort blobs).Pairwise fun b b' => b.lastModified ≤ b'.lastModified

/-- Blobs with the same time in the order in which they were appended. -/
def ListOrder.inOrder : ListOrder where
  sort := List.insertionSort fun b b' => b.lastModified ≤ b'.lastModified
  perm := List.perm_insertionSort _
  sorted blobs := by
    have : Std.Total fun b b' : ClaimBlob => b.lastModified ≤ b'.lastModified :=
      ⟨fun b b' => Nat.le_total b.lastModified b'.lastModified⟩
    have : IsTrans ClaimBlob fun b b' => b.lastModified ≤ b'.lastModified :=
      ⟨fun _ _ _ h h' => Nat.le_trans h h'⟩
    exact List.pairwise_insertionSort _ blobs

/-- The watch of the index: the bound of the request and the queue of the storage, and
once the storage has listed its blobs what is left of the list. -/
inductive IndexWatch where
  | stopped
  | requested (bound : Nat) (queue : List ClaimBlob)
  | watching (list queue : List ClaimBlob)
deriving DecidableEq

/-- `history` has the blobs in the order in which they were appended, `unnotified` the one
of which the watchers have not been notified, `delivered` the blobs that were passed to
`evr_index_claim_set` in any run. -/
structure IndexSync where
  history : List ClaimBlob
  unnotified : Option ClaimBlob
  watch : IndexWatch
  lastIndexedClaimTs : Int
  delivered : List ClaimBlob
deriving DecidableEq

attribute [ext] IndexSync

inductive IndexSyncEvent where
  | append (b : ClaimBlob)
  | notify
  | request
  | list
  | index
  | stop

namespace IndexSync

def start : IndexSync := ⟨[], none, .stopped, 0, []⟩

/-- The storage puts a blob to the queue of the watch. -/
def enqueue (b : ClaimBlob) : IndexWatch → IndexWatch
  | .stopped => .stopped
  | .requested bound queue => .requested bound (queue ++ [b])
  | .watching list queue => .watching list (queue ++ [b])

/-- The call of `evr_index_claim_set` for the next body sets the state. The merge of a
refused claim set does not reach its claims again: its row is a constraint violation, which
is `evr_ok`. -/
def records (s : IndexSync) (b : ClaimBlob) : Bool :=
  match b.kind with
  | .merged => true
  | .refused => b ∈ s.delivered
  | .ignored => false

/-- `evr_index_claim_set` for the next body. -/
def indexBody (s : IndexSync) (b : ClaimBlob) (watch : IndexWatch) : IndexSync :=
  { s with
    watch := watch
    lastIndexedClaimTs := if s.records b then toInt64 b.lastModified else s.lastIndexedClaimTs
    delivered := s.delivered ++ [b] }

/-- One step of the storage or of the index. -/
def step (order : ListOrder) (s : IndexSync) : IndexSyncEvent → IndexSync
  | .append b =>
    match s.unnotified with
    | none => { s with history := s.history ++ [b], unnotified := some b }
    | some _ => s
  | .notify =>
    match s.unnotified with
    | none => s
    | some b => { s with unnotified := none, watch := enqueue b s.watch }
  | .request =>
    match s.watch with
    | .stopped => { s with watch := .requested (applyWatchOverlap s.lastIndexedClaimTs) [] }
    | _ => s
  | .list =>
    match s.watch with
    | .requested bound queue => { s with
        watch := .watching (order.sort (s.history.filter fun b => bound ≤ b.lastModified)) queue }
    | _ => s
  | .index =>
    match s.watch with
    | .watching (b :: list) queue => s.indexBody b (.watching list queue)
    | .watching [] (b :: queue) => s.indexBody b (.watching [] queue)
    | _ => s
  | .stop => { s with watch := .stopped }

end IndexSync

/-- The index runs on or is started again, and indexes up to `k` bodies. -/
def catchUp (k : Nat) : List IndexSyncEvent :=
  [.notify, .request, .list] ++ List.replicate k .index

/-- Every blob that was appended has been delivered, or is delivered if the index runs long
enough. -/
def DeliversAll (order : ListOrder) (s : IndexSync) : Prop :=
  ∃ n, ∀ k, n ≤ k → ∀ b ∈ s.history, b ∈ (exec (IndexSync.step order) s (catchUp k)).delivered

/-- The later blob is not stamped more than the overlap, taken as milliseconds, before the
earlier one, unless that is ignored. -/
def WithinOverlap (b b' : ClaimBlob) : Prop :=
  b.kind ≠ .ignored → b.lastModified ≤ b'.lastModified + watchOverlap

namespace ResumeLemmas

variable {order : ListOrder} {s : IndexSync}

/-! ## One call -/

theorem records_iff {b : ClaimBlob} :
    s.records b = true ↔ b.kind = .merged ∨ b.kind = .refused ∧ b ∈ s.delivered := by
  unfold IndexSync.records
  cases b.kind with
  | merged => simp
  | refused => simp
  | ignored => simp

theorem kind_of_records {b : ClaimBlob} (h : s.records b = true) : b.kind ≠ .ignored := by
  rcases records_iff.mp h with hb | ⟨hb, -⟩
  · simp [hb]
  · simp [hb]

theorem records_of_delivered {b : ClaimBlob} (hkind : b.kind ≠ .ignored) (h : b ∈ s.delivered) :
    s.records b = true := by
  cases hb : b.kind with
  | merged => exact records_iff.mpr (.inl hb)
  | refused => exact records_iff.mpr (.inr ⟨hb, h⟩)
  | ignored => exact absurd hb hkind

/-- The kind of a claim blob with this content. -/
def KindOf (env : ClaimSetEnv) (index : IndexState) (key : BlobRef)
    (content : Except Res XmlDoc) : ClaimBlobKind → Prop
  | .ignored =>
    ∀ doc, content = .ok doc → (getRootClaimSet doc).bind (parseCreated env.timegm) = none
  | .refused => ∃ doc created, content = .ok doc ∧
      (getRootClaimSet doc).bind (parseCreated env.timegm) = some created ∧
      (key ∉ index.db.claimSet.map (·.ref) →
        (mergeAttrIndexClaimSet env key doc false index).1 = .userDataInvalid)
  | .merged => ∃ doc created, content = .ok doc ∧
      (getRootClaimSet doc).bind (parseCreated env.timegm) = some created ∧
      (key ∉ index.db.claimSet.map (·.ref) →
        (mergeAttrIndexClaimSet env key doc false index).1 = .ok)

section Call

variable {env : ClaimSetEnv} {index : IndexState} {key : BlobRef} {doc : XmlDoc} {created : Int}

/-- A claim set that has its row is not merged again. -/
theorem merge_again
    (hcreated : (getRootClaimSet doc).bind (parseCreated env.timegm) = some created)
    (hrow : key ∈ index.db.claimSet.map (·.ref)) :
    mergeAttrIndexClaimSet env key doc false index = (.ok, index) := by
  obtain ⟨cs, hcs, hparse⟩ := Option.bind_eq_some_iff.mp hcreated
  have hany : (index.db.claimSet.any fun r => r.ref = key) = true := by simpa using hrow
  have hinsert : insertClaimSet index.db key created = none := if_pos hany
  simp only [mergeAttrIndexClaimSet, hcs, hparse, Bool.false_eq_true, if_false, hinsert]

/-- A merge that gets to the row leaves it behind, with whatever it returns. -/
theorem row_of_merge
    (hcreated : (getRootClaimSet doc).bind (parseCreated env.timegm) = some created) :
    key ∈ (mergeAttrIndexClaimSet env key doc false index).2.db.claimSet.map (·.ref) := by
  obtain ⟨cs, hcs, hparse⟩ := Option.bind_eq_some_iff.mp hcreated
  simp only [mergeAttrIndexClaimSet, hcs, hparse, Bool.false_eq_true, if_false]
  cases hinsert : insertClaimSet index.db key created with
  | none => exact ClaimSetLemmas.mem_of_insertClaimSet hinsert
  | some db =>
    rw [ClaimSetLemmas.indexClaimSet_refs, ClaimSetLemmas.eq_of_insertClaimSet hinsert]
    exact List.mem_map.mpr ⟨_, List.mem_append_right _ (List.mem_singleton.mpr rfl), rfl⟩

/-- Only the merge sets the state, and only when it returns `evr_ok`. -/
theorem indexClaimSet_of_merge {store store' : IndexStore} {body : WatchBody}
    (hcall : store.indexClaimSet env body (.ok doc) = (.ok, store')) :
    store'.index = (mergeAttrIndexClaimSet env body.key doc false store.index).2 ∧
      ((mergeAttrIndexClaimSet env body.key doc false store.index).1 = .ok ∧
          store'.lastIndexedClaimTs = toInt64 body.lastModified.toNat ∨
        (mergeAttrIndexClaimSet env body.key doc false store.index).1 = .userDataInvalid ∧
          store'.lastIndexedClaimTs = store.lastIndexedClaimTs) := by
  simp only [IndexStore.indexClaimSet] at hcall
  split at hcall
  · next index hmerge =>
    cases hcall
    refine ⟨by rw [hmerge], .inl ⟨by rw [hmerge], ?_⟩⟩
    simp only
  · next index hmerge =>
    cases hcall
    exact ⟨by rw [hmerge], .inr ⟨by rw [hmerge], rfl⟩⟩
  · cases hcall
  · cases hcall

variable {store store' : IndexStore} {body : WatchBody} {content : Except Res XmlDoc}
  {b : ClaimBlob}

/-- A blob that is ignored leaves the state as it is. -/
theorem lastIndexedClaimTs_of_ignored
    (hcall : store.indexClaimSet env body content = (.ok, store'))
    (hkind : ∀ doc, content = .ok doc →
      (getRootClaimSet doc).bind (parseCreated env.timegm) = none) :
    store'.lastIndexedClaimTs = store.lastIndexedClaimTs := by
  cases content with
  | error e =>
    cases e with
    | userDataInvalid =>
      cases hcall
      rfl
    | _ => cases hcall
  | ok doc =>
    obtain ⟨-, ⟨hok, -⟩ | ⟨-, hkept⟩⟩ := indexClaimSet_of_merge hcall
    · have hnone := hkind doc rfl
      unfold mergeAttrIndexClaimSet at hok
      split at hok
      · cases hok
      · next cs hcs =>
        rw [hcs, Option.bind_some] at hnone
        rw [hnone] at hok
        cases hok
    · exact hkept

/-- A call of `evr_index_claim_set` that returns `evr_ok` sets the state as `indexBody`
does, when the row is in `claim_set` from the first call on. -/
theorem lastIndexedClaimTs_indexClaimSet
    (hcall : store.indexClaimSet env body content = (.ok, store'))
    (htime : b.lastModified = body.lastModified.toNat)
    (hkind : KindOf env store.index body.key content b.kind)
    (hrow : b.kind = .refused →
      (b ∈ s.delivered ↔ body.key ∈ store.index.db.claimSet.map (·.ref)))
    (hts : s.lastIndexedClaimTs = store.lastIndexedClaimTs) (watch : IndexWatch) :
    (s.indexBody b watch).lastIndexedClaimTs = store'.lastIndexedClaimTs := by
  have hset (h : s.records b = true) :
      (s.indexBody b watch).lastIndexedClaimTs = toInt64 body.lastModified.toNat := by
    rw [← htime]
    exact if_pos h
  have hkept (h : s.records b = false) :
      (s.indexBody b watch).lastIndexedClaimTs = store.lastIndexedClaimTs := by
    rw [← hts]
    exact if_neg (ne_true_of_eq_false h)
  cases hb : b.kind with
  | merged =>
    rw [hb] at hkind
    obtain ⟨doc, created, rfl, hcreated, hmerged⟩ := hkind
    obtain ⟨-, ⟨-, hset'⟩ | ⟨hinvalid, -⟩⟩ := indexClaimSet_of_merge hcall
    · rw [hset (records_iff.mpr (.inl hb)), hset']
    · by_cases hin : body.key ∈ store.index.db.claimSet.map (·.ref)
      · rw [merge_again hcreated hin] at hinvalid
        cases hinvalid
      · rw [hmerged hin] at hinvalid
        cases hinvalid
  | refused =>
    rw [hb] at hkind
    obtain ⟨doc, created, rfl, hcreated, hrefused⟩ := hkind
    obtain ⟨-, ⟨hok, hset'⟩ | ⟨hinvalid, hkept'⟩⟩ := indexClaimSet_of_merge hcall
    · have hin : body.key ∈ store.index.db.claimSet.map (·.ref) := by
        refine Classical.byContradiction fun hout => ?_
        rw [hrefused hout] at hok
        cases hok
      rw [hset (records_iff.mpr (.inr ⟨hb, (hrow hb).mpr hin⟩)), hset']
    · rw [hkept, hkept']
      refine Bool.eq_false_iff.mpr fun hrecords => ?_
      have hin := (hrow hb).mp ((records_iff.mp hrecords).resolve_left (by simp [hb])).2
      rw [merge_again hcreated hin] at hinvalid
      cases hinvalid
  | ignored =>
    rw [hb] at hkind
    rw [hkept (Bool.eq_false_iff.mpr fun hrecords => kind_of_records hrecords hb)]
    exact (lastIndexedClaimTs_of_ignored hcall hkind).symm

/-- After a call for a blob that is not ignored its row is in `claim_set`. -/
theorem row_indexClaimSet (hcall : store.indexClaimSet env body content = (.ok, store'))
    (hkind : KindOf env store.index body.key content b.kind) (hb : b.kind ≠ .ignored) :
    body.key ∈ store'.index.db.claimSet.map (·.ref) := by
  have hcreated : ∃ doc created, content = .ok doc ∧
      (getRootClaimSet doc).bind (parseCreated env.timegm) = some created := by
    cases hk : b.kind with
    | merged =>
      rw [hk] at hkind
      obtain ⟨doc, created, hdoc, hcreated, -⟩ := hkind
      exact ⟨doc, created, hdoc, hcreated⟩
    | refused =>
      rw [hk] at hkind
      obtain ⟨doc, created, hdoc, hcreated, -⟩ := hkind
      exact ⟨doc, created, hdoc, hcreated⟩
    | ignored => exact absurd hk hb
  obtain ⟨doc, created, rfl, hcreated⟩ := hcreated
  rw [(indexClaimSet_of_merge hcall).1]
  exact row_of_merge hcreated

end Call

theorem toInt64_lastModified (b : ClaimBlob) : toInt64 b.lastModified = b.lastModified := by
  refine toInt64_of_lt (Nat.lt_of_le_of_lt b.lastModified_le ?_)
  rw [llongMax]
  exact Nat.sub_lt (Nat.two_pow_pos 63) Nat.one_pos

/-- When a blob is listed after another one was indexed last. -/
theorem applyWatchOverlap_le_iff (b b' : ClaimBlob) :
    applyWatchOverlap (toInt64 b.lastModified) ≤ b'.lastModified ↔
      b.lastModified ≤ b'.lastModified + watchOverlap := by
  rw [toInt64_lastModified, applyWatchOverlap]
  split
  · omega
  · omega

/-! ## The invariant -/

/-- The blobs that were appended before the list have been delivered or are on the list,
those that were appended since are in the queue. -/
structure Listed (s : IndexSync) (list queue : List ClaimBlob) (old new : List ClaimBlob) :
    Prop where
  history : s.history = old ++ new
  sorted : list.Pairwise fun b b' => b.lastModified ≤ b'.lastModified
  listed : ∀ b ∈ list, b ∈ old
  old : ∀ b ∈ old, b ∉ s.delivered → b ∈ list
  new : ∀ b ∈ new, b ∉ s.delivered → b ∈ queue ++ s.unnotified.toList

/-- What is left of the watch. -/
def WatchSound (s : IndexSync) : IndexWatch → Prop
  | .stopped => s.unnotified.toList <:+ s.history
  | .requested bound queue => bound = applyWatchOverlap s.lastIndexedClaimTs ∧
      queue ++ s.unnotified.toList <:+ s.history
  | .watching list queue => queue ++ s.unnotified.toList <:+ s.history ∧
      ∃ old new, Listed s list queue old new

/-- A blob that has not been delivered would be listed if the index was started again. -/
structure Sound (s : IndexSync) : Prop where
  delivered : ∀ b ∈ s.delivered, b ∈ s.history
  last : s.lastIndexedClaimTs = 0 ∨
    ∃ b ∈ s.history, b.kind ≠ .ignored ∧ s.lastIndexedClaimTs = toInt64 b.lastModified
  safe : ∀ b ∈ s.history, b ∉ s.delivered → applyWatchOverlap s.lastIndexedClaimTs ≤ b.lastModified
  watch : WatchSound s s.watch

theorem unnotified_suffix {w : IndexWatch} (h : WatchSound s w) :
    s.unnotified.toList <:+ s.history := by
  cases w with
  | stopped => exact h
  | requested bound queue => exact (List.suffix_append _ _).trans h.2
  | watching list queue => exact (List.suffix_append _ _).trans h.1

theorem sound_start : Sound .start where
  delivered _ hb := absurd hb List.not_mem_nil
  last := .inl rfl
  safe _ hb := absurd hb List.not_mem_nil
  watch := List.suffix_refl _

theorem sound_append (h : Sound s) (b : ClaimBlob)
    (hpair : (s.step order (.append b)).history.Pairwise WithinOverlap) :
    Sound (s.step order (.append b)) := by
  cases hun : s.unnotified with
  | some b' =>
    simp only [IndexSync.step, hun]
    exact h
  | none =>
    simp only [IndexSync.step, hun] at hpair ⊢
    have hnew (b' : ClaimBlob) (hb' : b' ∈ s.history) : WithinOverlap b' b :=
      (List.pairwise_append.mp hpair).2.2 b' hb' b (List.mem_singleton.mpr rfl)
    refine ⟨fun b' hb' => List.mem_append_left _ (h.delivered b' hb'), ?_, fun b' hb' hun' => ?_, ?_⟩
    · rcases h.last with hzero | ⟨b', hb', hkind, hts⟩
      · exact .inl hzero
      · exact .inr ⟨b', List.mem_append_left _ hb', hkind, hts⟩
    · rcases List.mem_append.mp hb' with hold | hlast
      · exact h.safe b' hold hun'
      · rw [List.mem_singleton.mp hlast]
        rcases h.last with hzero | ⟨b'', hb'', hkind, hts⟩
        · simp only [hzero]
          exact Nat.zero_le _
        · simp only [hts]
          exact (applyWatchOverlap_le_iff b'' b).mpr (hnew b'' hb'' hkind)
    · have hgrow {queue : List ClaimBlob} (hsuffix : queue ++ s.unnotified.toList <:+ s.history) :
          queue ++ [b] <:+ s.history ++ [b] := by
        rw [hun, Option.toList_none, List.append_nil] at hsuffix
        obtain ⟨before, hbefore⟩ := hsuffix
        exact ⟨before, by rw [← hbefore, List.append_assoc]⟩
      have hwatch := h.watch
      cases hw : s.watch with
      | stopped => exact List.suffix_append _ _
      | requested bound queue =>
        rw [hw] at hwatch
        exact ⟨hwatch.1, hgrow hwatch.2⟩
      | watching list queue =>
        rw [hw] at hwatch
        obtain ⟨hsuffix, old, new, hlisted⟩ := hwatch
        refine ⟨hgrow hsuffix, old, new ++ [b], ?_, hlisted.sorted, hlisted.listed, hlisted.old, ?_⟩
        · rw [← List.append_assoc, ← hlisted.history]
        · intro b' hb' hun'
          rcases List.mem_append.mp hb' with hold | hlast
          · have hqueue := hlisted.new b' hold hun'
            rw [hun, Option.toList_none, List.append_nil] at hqueue
            exact List.mem_append_left _ hqueue
          · exact List.mem_append_right _ hlast

theorem sound_notify (h : Sound s) : Sound (s.step order .notify) := by
  cases hun : s.unnotified with
  | none =>
    simp only [IndexSync.step, hun]
    exact h
  | some b =>
    simp only [IndexSync.step, hun]
    refine ⟨h.delivered, h.last, h.safe, ?_⟩
    have hmove (queue : List ClaimBlob) :
        queue ++ s.unnotified.toList = queue ++ [b] ++ (none : Option ClaimBlob).toList := by
      rw [hun, Option.toList_some, Option.toList_none, List.append_nil]
    have hwatch := h.watch
    cases hw : s.watch with
    | stopped => exact List.nil_suffix
    | requested bound queue =>
      rw [hw] at hwatch
      exact ⟨hwatch.1, hmove queue ▸ hwatch.2⟩
    | watching list queue =>
      rw [hw] at hwatch
      obtain ⟨hsuffix, old, new, hlisted⟩ := hwatch
      refine ⟨hmove queue ▸ hsuffix, old, new, hlisted.history, hlisted.sorted, hlisted.listed,
        hlisted.old, fun b' hb' hun' => ?_⟩
      exact hmove queue ▸ hlisted.new b' hb' hun'

theorem sound_request (h : Sound s) : Sound (s.step order .request) := by
  have hsuffix := unnotified_suffix h.watch
  cases hw : s.watch with
  | stopped =>
    simp only [IndexSync.step, hw]
    exact ⟨h.delivered, h.last, h.safe, rfl, hsuffix⟩
  | _ =>
    simp only [IndexSync.step, hw]
    exact h

theorem sound_list (h : Sound s) : Sound (s.step order .list) := by
  have hwatch := h.watch
  cases hw : s.watch with
  | requested bound queue =>
    rw [hw] at hwatch
    obtain ⟨rfl, hsuffix⟩ := hwatch
    simp only [IndexSync.step, hw]
    have hmem (b : ClaimBlob) : b ∈ order.sort (s.history.filter fun b =>
        applyWatchOverlap s.lastIndexedClaimTs ≤ b.lastModified) ↔
        b ∈ s.history ∧ applyWatchOverlap s.lastIndexedClaimTs ≤ b.lastModified := by
      rw [(order.perm _).mem_iff, List.mem_filter, decide_eq_true_iff]
    refine ⟨h.delivered, h.last, h.safe, hsuffix, s.history, [], (List.append_nil _).symm,
      order.sorted _, fun b hb => ((hmem b).mp hb).1, fun b hb hun => ?_,
      fun b hb => absurd hb List.not_mem_nil⟩
    exact (hmem b).mpr ⟨hb, h.safe b hb hun⟩
  | _ =>
    simp only [IndexSync.step, hw]
    exact h

theorem sound_stop (h : Sound s) : Sound (s.step order .stop) :=
  have hsuffix := unnotified_suffix h.watch
  ⟨h.delivered, h.last, h.safe, hsuffix⟩

theorem not_mem_left {b b' : ClaimBlob} {blobs : List ClaimBlob} (h : b' ∉ blobs ++ [b]) :
    b' ∉ blobs :=
  fun hmem => h (List.mem_append_left _ hmem)

theorem ne_of_not_mem {b b' : ClaimBlob} {blobs : List ClaimBlob} (h : b' ∉ blobs ++ [b]) :
    b' ≠ b :=
  fun heq => h (List.mem_append_right _ (List.mem_singleton.mpr heq))

/-- A body is indexed, and what is left of the watch is sound. -/
theorem sound_indexBody (h : Sound s) {b : ClaimBlob} (hb : b ∈ s.history) (watch : IndexWatch)
    (hsafe : ∀ b' ∈ s.history, b' ∉ s.delivered ++ [b] → WithinOverlap b b')
    (hwatch : WatchSound (s.indexBody b watch) watch) : Sound (s.indexBody b watch) := by
  refine ⟨fun b' hb' => ?_, ?_, fun b' hb' hun => ?_, hwatch⟩
  · rcases List.mem_append.mp hb' with hold | hlast
    · exact h.delivered b' hold
    · exact List.mem_singleton.mp hlast ▸ hb
  · cases hrecords : s.records b with
    | true => exact .inr ⟨b, hb, kind_of_records hrecords, if_pos hrecords⟩
    | false =>
      have hsame : (s.indexBody b watch).lastIndexedClaimTs = s.lastIndexedClaimTs :=
        if_neg (Bool.not_eq_true _ ▸ hrecords)
      rw [hsame]
      exact h.last
  · cases hrecords : s.records b with
    | true =>
      have hts : (s.indexBody b watch).lastIndexedClaimTs = toInt64 b.lastModified :=
        if_pos hrecords
      rw [hts]
      exact (applyWatchOverlap_le_iff b b').mpr (hsafe b' hb' hun (kind_of_records hrecords))
    | false =>
      have hsame : (s.indexBody b watch).lastIndexedClaimTs = s.lastIndexedClaimTs :=
        if_neg (Bool.not_eq_true _ ▸ hrecords)
      rw [hsame]
      exact h.safe b' hb' (not_mem_left hun)

theorem history_index (s : IndexSync) : (s.step order .index).history = s.history := by
  unfold IndexSync.step
  simp only
  repeat' split
  all_goals rfl

theorem unnotified_index (s : IndexSync) :
    (s.step order .index).unnotified = s.unnotified := by
  unfold IndexSync.step
  simp only
  repeat' split
  all_goals rfl

theorem sound_index (h : Sound s) (hpair : s.history.Pairwise WithinOverlap) :
    Sound (s.step order .index) := by
  have hwatch := h.watch
  unfold IndexSync.step
  simp only
  split
  · next b list queue hw =>
    rw [hw] at hwatch
    obtain ⟨hsuffix, old, new, hhistory, hsorted, hlisted, hold, hnew⟩ := hwatch
    have hb : b ∈ old := hlisted b List.mem_cons_self
    have hleft {b' : ClaimBlob} (hb' : b' ∈ old) (hun : b' ∉ s.delivered ++ [b]) : b' ∈ list :=
      (List.mem_cons.mp (hold b' hb' (not_mem_left hun))).resolve_left (ne_of_not_mem hun)
    refine sound_indexBody h (hhistory ▸ List.mem_append_left _ hb) _ (fun b' hb' hun => ?_)
      ⟨hsuffix, old, new, hhistory, hsorted.of_cons,
        fun b' hb' => hlisted b' (List.mem_cons_of_mem _ hb'), fun b' hb' hun => hleft hb' hun,
        fun b' hb' hun => hnew b' hb' (not_mem_left hun)⟩
    rw [hhistory] at hb' hpair
    rcases List.mem_append.mp hb' with hold' | hnew'
    -- what is left on the list is not older
    · intro _
      exact (List.rel_of_pairwise_cons hsorted (hleft hold' hun)).trans (Nat.le_add_right _ _)
    · exact (List.pairwise_append.mp hpair).2.2 b hb b' hnew'
  · next b queue hw =>
    rw [hw] at hwatch
    obtain ⟨hsuffix, old, new, hhistory, -, hlisted, hold, hnew⟩ := hwatch
    have hleft {b' : ClaimBlob} (hb' : b' ∈ new) (hun : b' ∉ s.delivered ++ [b]) :
        b' ∈ queue ++ s.unnotified.toList :=
      (List.mem_cons.mp (hnew b' hb' (not_mem_left hun))).resolve_left (ne_of_not_mem hun)
    have hnone {b' : ClaimBlob} (hb' : b' ∈ old) (hun : b' ∉ s.delivered ++ [b]) : False :=
      List.not_mem_nil (hold b' hb' (not_mem_left hun))
    refine sound_indexBody h (hsuffix.subset List.mem_cons_self) _ (fun b' hb' hun => ?_)
      ⟨(List.suffix_cons _ _).trans hsuffix, old, new, hhistory, .nil, hlisted,
        fun b' hb' hun => (hnone hb' hun).elim, fun b' hb' hun => hleft hb' hun⟩
    rw [hhistory] at hb'
    rcases List.mem_append.mp hb' with hold' | hnew'
    · exact (hnone hold' hun).elim
    -- the queue has the blobs in the order of the history
    · obtain ⟨before, hbefore⟩ := hsuffix
      rw [← hbefore] at hpair
      exact List.rel_of_pairwise_cons (List.pairwise_append.mp hpair).2.1 (hleft hnew' hun)
  · exact h

/-- One step of a history within the overlap. -/
theorem sound_step (h : Sound s) {e : IndexSyncEvent}
    (hpair : (s.step order e).history.Pairwise WithinOverlap) : Sound (s.step order e) := by
  cases e with
  | append b => exact sound_append h b hpair
  | notify => exact sound_notify h
  | request => exact sound_request h
  | list => exact sound_list h
  | index => exact sound_index h (history_index s ▸ hpair)
  | stop => exact sound_stop h

theorem history_step (s : IndexSync) (e : IndexSyncEvent) :
    s.history <+: (s.step order e).history := by
  cases e with
  | append b =>
    simp only [IndexSync.step]
    split
    · exact List.prefix_append _ _
    · exact List.prefix_refl _
  | index => exact (history_index s).symm ▸ List.prefix_refl _
  | stop => exact List.prefix_refl _
  | _ =>
    simp only [IndexSync.step]
    split
    · exact List.prefix_refl _
    · exact List.prefix_refl _

theorem sound_run (hs : Sound s) {events : List IndexSyncEvent}
    (hpair : (exec (IndexSync.step order) s events).history.Pairwise WithinOverlap) :
    Sound (exec (IndexSync.step order) s events) := by
  induction events using List.reverseRecOn with
  | nil => exact hs
  | append_singleton events e ih =>
    rw [exec_append_singleton] at hpair ⊢
    exact sound_step (ih (hpair.sublist (history_step _ e).sublist)) hpair

/-! ## Catching up -/

/-- Everything that is pending is indexed. -/
theorem watch_index_all (order : ListOrder) {s : IndexSync} {list queue : List ClaimBlob}
    (hw : s.watch = .watching list queue) {k : Nat} (hk : list.length + queue.length ≤ k) :
    (exec (IndexSync.step order) s (List.replicate k .index)).watch = .watching [] [] := by
  induction k generalizing s list queue with
  | zero =>
    have hlist : list = [] := List.length_eq_zero_iff.mp (by omega)
    have hqueue : queue = [] := List.length_eq_zero_iff.mp (by omega)
    rw [hlist, hqueue] at hw
    exact hw
  | succ k ih =>
    rw [List.replicate_succ, exec_cons]
    cases list with
    | cons b list =>
      rw [List.length_cons] at hk
      have hnext : (s.step order .index).watch = .watching list queue := by
        simp only [IndexSync.step, hw, IndexSync.indexBody]
      exact ih hnext (by omega)
    | nil =>
      cases queue with
      | cons b queue =>
        rw [List.length_cons] at hk
        have hnext : (s.step order .index).watch = .watching [] queue := by
          simp only [IndexSync.step, hw, IndexSync.indexBody]
        exact ih hnext (by omega)
      | nil =>
        have hnext : (s.step order .index).watch = .watching [] [] := by
          simp only [IndexSync.step, hw]
        exact ih hnext (Nat.zero_le _)

theorem frame_index (order : ListOrder) (s : IndexSync) (k : Nat) :
    (exec (IndexSync.step order) s (List.replicate k .index)).history = s.history ∧
      (exec (IndexSync.step order) s (List.replicate k .index)).unnotified = s.unnotified := by
  induction k generalizing s with
  | zero => exact ⟨rfl, rfl⟩
  | succ k ih =>
    rw [List.replicate_succ, exec_cons]
    obtain ⟨hhistory, hun⟩ := ih (s.step order .index)
    exact ⟨hhistory.trans (history_index s), hun.trans (unnotified_index s)⟩

/-- The storage has listed its blobs. -/
theorem watching_resumed (order : ListOrder) (s : IndexSync) :
    ∃ list queue, (exec (IndexSync.step order) s [.notify, .request, .list]).watch =
        .watching list queue ∧
      (exec (IndexSync.step order) s [.notify, .request, .list]).unnotified = none ∧
      (exec (IndexSync.step order) s [.notify, .request, .list]).history = s.history := by
  obtain ⟨history, unnotified, watch, ts, delivered⟩ := s
  cases unnotified with
  | none =>
    cases watch with
    | stopped => exact ⟨_, _, rfl, rfl, rfl⟩
    | requested bound queue => exact ⟨_, _, rfl, rfl, rfl⟩
    | watching list queue => exact ⟨_, _, rfl, rfl, rfl⟩
  | some b =>
    cases watch with
    | stopped => exact ⟨_, _, rfl, rfl, rfl⟩
    | requested bound queue => exact ⟨_, _, rfl, rfl, rfl⟩
    | watching list queue => exact ⟨_, _, rfl, rfl, rfl⟩

/-- An index that has nothing pending has got everything. -/
theorem delivered_of_caught_up (h : Sound s) (hw : s.watch = .watching [] [])
    (hun : s.unnotified = none) {b : ClaimBlob} (hb : b ∈ s.history) : b ∈ s.delivered := by
  have hwatch := h.watch
  rw [hw] at hwatch
  obtain ⟨-, old, new, hlisted⟩ := hwatch
  refine Classical.byContradiction fun hmissing => ?_
  rw [hlisted.history] at hb
  rcases List.mem_append.mp hb with hold | hnew
  · exact List.not_mem_nil (hlisted.old b hold hmissing)
  · have hpending := hlisted.new b hnew hmissing
    rw [hun] at hpending
    exact List.not_mem_nil hpending

theorem deliversAll_of_sound (h : Sound s) (hpair : s.history.Pairwise WithinOverlap) :
    DeliversAll order s := by
  obtain ⟨list, queue, hw, hun, hhistory⟩ := watching_resumed order s
  refine ⟨list.length + queue.length, fun k hk b hb => ?_⟩
  obtain ⟨hhistory', hun'⟩ := frame_index order
    (exec (IndexSync.step order) s [.notify, .request, .list]) k
  rw [hhistory] at hhistory'
  rw [hun] at hun'
  rw [← exec_append] at hhistory' hun'
  have hcaught := watch_index_all order hw hk
  rw [← exec_append] at hcaught
  refine delivered_of_caught_up (sound_run h ?_) hcaught hun' ?_
  · rw [hhistory']
    exact hpair
  · rw [hhistory']
    exact hb

/-! ## Lost blobs -/

/-- The storage appends blobs and notifies its watchers. -/
def appendAll (blobs : List ClaimBlob) : List IndexSyncEvent :=
  blobs.flatMap fun b => [.append b, .notify]

theorem exec_appendAll (order : ListOrder) {s : IndexSync} (hun : s.unnotified = none)
    (hw : s.watch = .stopped) (blobs : List ClaimBlob) :
    exec (IndexSync.step order) s (appendAll blobs) = { s with history := s.history ++ blobs } := by
  obtain ⟨history, unnotified, watch, ts, delivered⟩ := s
  cases hun
  cases hw
  induction blobs generalizing history with
  | nil =>
    simp only [List.append_nil]
    rfl
  | cons b blobs ih =>
    have happend := ih (history ++ [b])
    rw [List.append_assoc] at happend
    exact happend

/-- A blob that is neither listed nor queued is not delivered. -/
theorem not_delivered_index (order : ListOrder) {s : IndexSync} {b : ClaimBlob}
    {list queue : List ClaimBlob} (hw : s.watch = .watching list queue) (hlist : b ∉ list)
    (hqueue : b ∉ queue) (hdelivered : b ∉ s.delivered) (k : Nat) :
    b ∉ (exec (IndexSync.step order) s (List.replicate k .index)).delivered := by
  induction k generalizing s list queue with
  | zero => exact hdelivered
  | succ k ih =>
    rw [List.replicate_succ, exec_cons]
    have hnext (b' : ClaimBlob) (hne : b ≠ b') : b ∉ s.delivered ++ [b'] := by
      intro hmem
      rcases List.mem_append.mp hmem with hold | hlast
      · exact hdelivered hold
      · exact hne (List.mem_singleton.mp hlast)
    cases list with
    | cons b' list =>
      have hne := List.ne_of_not_mem_cons hlist
      have hrest := List.not_mem_of_not_mem_cons hlist
      have hstep : s.step order .index = s.indexBody b' (.watching list queue) := by
        simp only [IndexSync.step, hw]
      rw [hstep]
      exact ih rfl hrest hqueue (hnext b' hne)
    | nil =>
      cases queue with
      | cons b' queue =>
        have hne := List.ne_of_not_mem_cons hqueue
        have hrest := List.not_mem_of_not_mem_cons hqueue
        have hstep : s.step order .index = s.indexBody b' (.watching [] queue) := by
          simp only [IndexSync.step, hw]
        rw [hstep]
        exact ih rfl hlist hrest (hnext b' hne)
      | nil =>
        have hstep : s.step order .index = s := by
          simp only [IndexSync.step, hw]
        rw [hstep]
        exact ih hw hlist hqueue hdelivered

/-- What the index has got when it has indexed a list. -/
theorem exec_index_all (order : ListOrder) (history list queue : List ClaimBlob) (ts : Int)
    (delivered : List ClaimBlob) :
    ∃ ts', exec (IndexSync.step order) ⟨history, none, .watching list queue, ts, delivered⟩
        (List.replicate list.length .index) =
      ⟨history, none, .watching [] queue, ts', delivered ++ list⟩ := by
  induction list generalizing ts delivered with
  | nil => exact ⟨ts, by rw [List.append_nil]; rfl⟩
  | cons b list ih =>
    rw [List.length_cons, List.replicate_succ]
    obtain ⟨ts', hrest⟩ := ih _ (delivered ++ [b])
    refine ⟨ts', ?_⟩
    rw [exec_cons, List.append_cons]
    exact hrest

/-- The index stops right after a blob that was appended between its request and the list,
and was therefore delivered by the list and by the queue. -/
def stopAfter (old : List ClaimBlob) (b : ClaimBlob) (new : List ClaimBlob) :
    List IndexSyncEvent :=
  appendAll old ++ ([.request, .append b, .notify, .list] ++
    (List.replicate (old.length + 1) .index ++ ([.index, .stop] ++ appendAll new)))

/-- What the index has got then. -/
theorem exec_stopAfter (order : ListOrder) (old : List ClaimBlob) {b : ClaimBlob}
    (hkind : b.kind ≠ .ignored) (new : List ClaimBlob) :
    ∃ delivered, (∀ b' ∈ delivered, b' ∈ old ∨ b' = b) ∧
      exec (IndexSync.step order) .start (stopAfter old b new) =
        ⟨old ++ b :: new, none, .stopped, toInt64 b.lastModified, delivered⟩ := by
  let list := order.sort ((old ++ [b]).filter fun b => 0 ≤ b.lastModified)
  have hperm : list.Perm (old ++ [b]) := by
    refine (order.perm _).trans (List.Perm.of_eq (List.filter_eq_self.mpr fun b _ => ?_))
    exact decide_eq_true (Nat.zero_le _)
  have hlength : list.length = old.length + 1 := by
    rw [hperm.length_eq, List.length_append, List.length_singleton]
  have hold : exec (IndexSync.step order) .start (appendAll old) =
      ⟨old, none, .stopped, 0, []⟩ := exec_appendAll order rfl rfl old
  have hlisted : exec (IndexSync.step order) ⟨old, none, .stopped, 0, []⟩
      [.request, .append b, .notify, .list] =
        ⟨old ++ [b], none, .watching list [b], 0, []⟩ := rfl
  obtain ⟨ts, hindex⟩ := exec_index_all order (old ++ [b]) list [b] 0 []
  rw [hlength, List.nil_append] at hindex
  have hrecords : IndexSync.records ⟨old ++ [b], none, .watching [] [b], ts, list⟩ b = true :=
    records_of_delivered hkind
      (hperm.mem_iff.mpr (List.mem_append_right _ (List.mem_singleton.mpr rfl)))
  have hstop : exec (IndexSync.step order) ⟨old ++ [b], none, .watching [] [b], ts, list⟩
      [.index, .stop] =
        ⟨old ++ [b], none, .stopped, toInt64 b.lastModified, list ++ [b]⟩ := by
    simp only [exec_cons, exec_nil, IndexSync.step, IndexSync.indexBody, if_pos hrecords]
  have hnew := exec_appendAll order
    (s := ⟨old ++ [b], none, .stopped, toInt64 b.lastModified, list ++ [b]⟩) rfl rfl new
  refine ⟨list ++ [b], fun b' hb' => ?_, ?_⟩
  · rcases List.mem_append.mp hb' with hmem | hlast
    · rcases List.mem_append.mp (hperm.mem_iff.mp hmem) with hmem | hlast
      · exact .inl hmem
      · exact .inr (List.mem_singleton.mp hlast)
    · exact .inr (List.mem_singleton.mp hlast)
  · rw [stopAfter, exec_append, hold, exec_append, hlisted, exec_append, hindex, exec_append,
      hstop, hnew, List.append_assoc, List.singleton_append]

/-- The index is started again. -/
theorem exec_catchUp_stopped (order : ListOrder) (history : List ClaimBlob) (ts : Int)
    (delivered : List ClaimBlob) (k : Nat) :
    exec (IndexSync.step order) ⟨history, none, .stopped, ts, delivered⟩ (catchUp k) =
      exec (IndexSync.step order) ⟨history, none, .watching (order.sort (history.filter fun b =>
        applyWatchOverlap ts ≤ b.lastModified)) [], ts, delivered⟩ (List.replicate k .index) := by
  rw [catchUp, exec_append]
  rfl

theorem pairwise_of_split {R : ClaimBlob → ClaimBlob → Prop} {history : List ClaimBlob}
    (h : ∀ old b new, history = old ++ b :: new → ∀ b' ∈ new, R b b') : history.Pairwise R := by
  induction history with
  | nil => exact .nil
  | cons b history ih =>
    refine .cons (h [] b history rfl) (ih fun old b' new hsplit => h (b :: old) b' new ?_)
    rw [hsplit, List.cons_append]

/-- A blob that was stamped too early before the last recorded one is lost when the index is
started again. -/
theorem not_deliversAll_of_early (order : ListOrder) {history delivered : List ClaimBlob}
    {b b' : ClaimBlob} (hearly : ¬ WithinOverlap b b') (hb' : b' ∈ history)
    (hmissing : b' ∉ delivered) :
    ¬ DeliversAll order ⟨history, none, .stopped, toInt64 b.lastModified, delivered⟩ := by
  have hlt := (Classical.not_imp.mp hearly).2
  have hunlisted : b' ∉ order.sort (history.filter fun b'' =>
      applyWatchOverlap (toInt64 b.lastModified) ≤ b''.lastModified) := by
    rw [(order.perm _).mem_iff, List.mem_filter, decide_eq_true_iff, applyWatchOverlap_le_iff]
    exact fun h => hlt h.2
  rintro ⟨n, hn⟩
  have hgot := hn n (Nat.le_refl n) b' hb'
  rw [exec_catchUp_stopped] at hgot
  exact not_delivered_index order rfl hunlisted List.not_mem_nil hmissing n hgot

/-- A history with such a blob. -/
theorem not_deliversAll_stopAfter (order : ListOrder) {old new : List ClaimBlob}
    {b b' : ClaimBlob} (hnodup : (old ++ b :: new).Nodup) (hb' : b' ∈ new)
    (hearly : ¬ WithinOverlap b b') :
    ¬ DeliversAll order (exec (IndexSync.step order) .start (stopAfter old b new)) := by
  obtain ⟨hkind, -⟩ := Classical.not_imp.mp hearly
  obtain ⟨delivered, hdelivered, hstop⟩ := exec_stopAfter order old hkind new
  have hmissing : b' ∉ delivered := by
    intro hmem
    obtain ⟨-, hnodup', hdisjoint⟩ := List.nodup_append.mp hnodup
    rcases hdelivered b' hmem with hold | rfl
    · exact hdisjoint b' hold b' (List.mem_cons_of_mem _ hb') rfl
    · exact (List.nodup_cons.mp hnodup').1 hb'
  rw [hstop]
  exact not_deliversAll_of_early order hearly
    (List.mem_append_right _ (List.mem_cons_of_mem _ hb')) hmissing

end ResumeLemmas

open ResumeLemmas

/-- Whenever the index stops and resumes, every claim blob of the history is delivered if the
index runs long enough, if and only if no blob is stamped more than 600 milliseconds before an
earlier one that is not ignored. A refused one counts: it is taken for an indexed one when it
is delivered again. -/
theorem resume_delivers_all_iff (order : ListOrder) (history : List ClaimBlob)
    (hkeys : (history.map (·.key)).Nodup) :
    (∀ events, (exec (IndexSync.step order) .start events).history = history →
      DeliversAll order (exec (IndexSync.step order) .start events)) ↔
      history.Pairwise WithinOverlap := by
  constructor
  · intro h
    have hnodup : history.Nodup := hkeys.of_map _
    refine pairwise_of_split fun old b new hsplit b' hb' => ?_
    refine Classical.byContradiction fun hearly => ?_
    refine not_deliversAll_stopAfter order (hsplit ▸ hnodup) hb' hearly (h _ ?_)
    by_cases hkind : b.kind = .ignored
    · exact absurd (fun hi => absurd hkind hi) hearly
    · obtain ⟨delivered, -, hstop⟩ := exec_stopAfter order old hkind new
      rw [hstop, hsplit]
  · rintro hpair events rfl
    exact deliversAll_of_sound (sound_run sound_start hpair) hpair

/-- Two claim blobs, the second one stamped a second before the first. -/
def claimOnTime : ClaimBlob := ⟨Vector.replicate _ 1, 1704067201000, .merged, by decide⟩
def claimSteppedBack : ClaimBlob := ⟨Vector.replicate _ 2, 1704067200000, .merged, by decide⟩

/-- Appended in the order of their times, both are delivered. -/
theorem resume_delivers_all_iff_in_order :
    DeliversAll .inOrder (exec (IndexSync.step .inOrder) .start
      [.append claimSteppedBack, .notify, .request, .list, .append claimOnTime]) :=
  (resume_delivers_all_iff .inOrder [claimSteppedBack, claimOnTime] (by decide)).mpr
    (List.pairwise_pair.mpr fun _ => by decide) _ rfl

/-- The clock steps back by a second while the index is stopped. -/
theorem claim_lost_after_clock_step :
    claimOnTime.lastModified < claimSteppedBack.lastModified + 10 * 60 * 1000 ∧
      ¬ DeliversAll .inOrder (exec (IndexSync.step .inOrder) .start
        [.request, .list, .append claimOnTime, .notify, .index, .stop,
          .append claimSteppedBack, .notify]) := by
  refine ⟨by decide, ?_⟩
  have hlisted : exec (IndexSync.step .inOrder) .start [.request, .list] =
      ⟨[], none, .watching [] [], 0, []⟩ := rfl
  have hkind : claimOnTime.kind = .merged := rfl
  have hrecords : IndexSync.records ⟨[claimOnTime], none, .watching [] [claimOnTime], 0, []⟩
      claimOnTime = true := records_iff.mpr (.inl hkind)
  have hstop : exec (IndexSync.step .inOrder) ⟨[], none, .watching [] [], 0, []⟩
      [.append claimOnTime, .notify, .index, .stop, .append claimSteppedBack, .notify] =
        ⟨[claimOnTime, claimSteppedBack], none, .stopped, toInt64 claimOnTime.lastModified,
          [claimOnTime]⟩ := by
    simp only [exec_cons, exec_nil, IndexSync.step, IndexSync.enqueue, List.nil_append,
      IndexSync.indexBody, if_pos hrecords, List.singleton_append]
  have hearly : ¬ WithinOverlap claimOnTime claimSteppedBack :=
    fun h => absurd (h (by rw [hkind]; decide)) (by decide)
  have hlater : claimSteppedBack ∈ [claimOnTime, claimSteppedBack] :=
    List.mem_cons_of_mem _ (List.mem_singleton.mpr rfl)
  have hfirst : claimSteppedBack ∉ [claimOnTime] :=
    fun h => absurd (congrArg (·.lastModified) (List.mem_singleton.mp h)) (by decide)
  change ¬ DeliversAll .inOrder (exec (IndexSync.step .inOrder) .start
    ([.request, .list] ++
      [.append claimOnTime, .notify, .index, .stop, .append claimSteppedBack, .notify]))
  rw [exec_append, hlisted, hstop]
  exact not_deliversAll_of_early .inOrder hearly hlater hfirst

end Everarch
