import Everarch.Server.Watch

/-!
# Watches lose no blob

The watch registers its queue and lists the index then, the persister adds a blob to the
index and notifies the watchers then, so that a blob is listed or queued. A queue that
overflowed stays so until the worker of the watch sees it.

* `DeliveryLemmas.eventually_takes`: the worker comes to take from its queue, and has
  reported what it listed.
* `DeliveryLemmas.eventually_reported`, `DeliveryLemmas.eventually_lost`: what is queued
  is reported unless the queue overflows.
* `watch_loses_no_blob`: what every fair run comes to.
-/

namespace Everarch

/-- The states of an endless run of the server. -/
def stateAt (env : StorageEnv) (run : Nat → ServerEvent) : Nat → Server :=
  trace (Server.step env) .start run

/-- The worker of the connection and the persister take turns again and again, the peer
stays and the server keeps running. -/
structure FairWatch (env : StorageEnv) (run : Nat → ServerEvent) (i : Nat) : Prop where
  turns : ∀ n, ∃ m, n ≤ m ∧ ∃ k, run m = .turn i k
  persists : ∀ n, ∃ m, n ≤ m ∧ run m = .persist
  stays : ∀ n, run n ≠ .hangUp i
  running : ∀ n, run n ≠ .shutdown
  alive : ∀ n, (stateAt env run n).halted = false

/-- The watch of the connection has reported the blob. -/
def Reported (s : Server) (i : Nat) (blob : ModifiedBlob) : Prop :=
  ∃ flags, .modified ⟨blob.key, blob.lastModified, flags⟩ ∈ (s.connection i).replies

/-- The queue in the slot has overflowed. -/
def Overflowed (s : Server) (slot : Nat) : Prop :=
  ∃ o, s.watchers[slot]? = some (some o) ∧ o.messages.status = .temporaryOccupied

namespace DeliveryLemmas

open NotifyLemmas WatchersLemmas WatchLemmas

/-! ## Listing -/

theorem mem_listBlobsLoop {f : BlobFilter} {found : Option BlobPosition} {rows : List BlobPosition}
    {row : BlobPosition} (hrow : row ∈ found ∨ row ∈ rows ∧ f.passes (toInt32 row.flags) = true) :
    ∃ last, handleBlobList row last ∈ listBlobsLoop f found rows := by
  induction rows generalizing found with
  | nil =>
    rcases hrow with hfound | ⟨hmem, -⟩
    · cases hfound
      exact ⟨true, List.mem_singleton.mpr rfl⟩
    · exact absurd hmem List.not_mem_nil
  | cons row' rows ih =>
    unfold listBlobsLoop
    split
    · rcases hrow with hfound | ⟨hmem, hpasses⟩
      · refine ⟨false, List.mem_append_left _ ?_⟩
        cases hfound
        exact List.mem_singleton.mpr rfl
      · have hnext : row ∈ some row' ∨ row ∈ rows ∧ f.passes (toInt32 row.flags) = true := by
          rcases List.mem_cons.mp hmem with rfl | hmem
          · exact .inl rfl
          · exact .inr ⟨hmem, hpasses⟩
        obtain ⟨last, hlast⟩ := ih hnext
        exact ⟨last, List.mem_append_right _ hlast⟩
    · next hskip =>
      refine ih (hrow.imp_right fun ⟨hmem, hpasses⟩ => ⟨?_, hpasses⟩)
      rcases List.mem_cons.mp hmem with rfl | hmem
      · exact absurd hpasses hskip
      · exact hmem

theorem passes_toInt32 (f : BlobFilter) (flags : Int) :
    f.passes (toInt32 flags) = f.passes flags := by
  have hbyte : UInt8.ofInt (toInt32 flags) = UInt8.ofInt flags := by
    rw [UInt8.ofInt, toInt32_emod, UInt8.ofInt]
  rw [BlobFilter.passes, hbyte, BlobFilter.passes]

/-- A row that the filter passes is listed. -/
theorem mem_glacierListBlobs {env : StorageEnv} {db : IndexDb} {f : BlobFilter}
    (hsort : f.sortOrder = sortOrderLastModified) (hbound : f.lastModifiedAfter ≤ llongMax)
    {blobs : List ModifiedBlob} (hlist : glacierListBlobs env db f = some blobs)
    {blob : ModifiedBlob} {row : BlobPosition} (hrow : row ∈ db.blobPosition)
    (hof : RowOf blob row) (hflags : f.passes blob.flags = true)
    (hafter : (f.lastModifiedAfter : Int) ≤ toInt64 blob.lastModified) :
    ∃ flags, ⟨blob.key, blob.lastModified, flags⟩ ∈ blobs := by
  rw [glacierListBlobs_live env hsort hbound] at hlist
  cases hlist
  obtain ⟨hkey, hrowFlags, htime, hlt⟩ := hof
  have hmem : row ∈ env.byLastModified (db.blobPosition.filter
      fun r => (f.lastModifiedAfter : Int) ≤ r.lastModified) := by
    rw [(env.byLastModified_perm _).mem_iff, List.mem_filter]
    exact ⟨hrow, decide_eq_true (htime ▸ hafter)⟩
  have hpasses : f.passes (toInt32 row.flags) = true := by
    rw [passes_toInt32, hrowFlags]
    exact hflags
  have hfound : row ∈ (none : Option BlobPosition) ∨ row ∈ env.byLastModified
      (db.blobPosition.filter fun r => (f.lastModifiedAfter : Int) ≤ r.lastModified) ∧
      f.passes (toInt32 row.flags) = true := .inr ⟨hmem, hpasses⟩
  obtain ⟨last, hlast⟩ := mem_listBlobsLoop hfound
  refine ⟨if last then watchFlagEob else 0, ?_⟩
  have hmillis : (row.lastModified % 2 ^ 64).toNat = blob.lastModified := by
    rw [htime, toNat_toInt64 hlt]
  rw [handleBlobList, hkey, hmillis] at hlast
  exact hlast

/-! ## The persister in a run -/

section Persister

variable {env : StorageEnv} {s : Server}

theorem step_running {e : ServerEvent} (h : e ≠ .shutdown) :
    (s.step env e).running = s.running := by
  have hend (i : Nat) (slot : Option Nat) (res : Res) :
      (s.endWatch i slot res).running = s.running := by
    cases slot with
    | none => rfl
    | some k => rfl
  unfold Server.step
  split
  · rfl
  · cases e with
    | hangUp i =>
      simp only [Server.hangUp]
      repeat' split
      all_goals first | rfl | exact hend _ _ _
    | turn i n =>
      simp only [Server.turn]
      repeat' split
      all_goals first | rfl | exact hend _ _ _
    | takeTask now =>
      simp only [Server.takeTask]
      repeat' split
      all_goals rfl
    | persist =>
      simp only [Server.persist, Server.unlockDone]
      repeat' split
      all_goals rfl
    | shutdown => exact absurd rfl h
    | _ => rfl

/-- Nobody but the persister ends its task. -/
theorem step_persister {e : ServerEvent} (he : e ≠ .persist) (hp : s.persister ≠ .idle) :
    (s.step env e).persister = s.persister ∧ (s.step env e).notified = s.notified := by
  unfold Server.step
  split
  · exact ⟨rfl, rfl⟩
  · cases e with
    | hangUp i => exact ⟨(sameIndex_hangUp i).persister, (sameIndex_hangUp i).notified⟩
    | turn i n => exact ⟨(sameIndex_turn i n).persister, (sameIndex_turn i n).notified⟩
    | takeTask now =>
      have hsame : s.takeTask env now = s := by
        unfold Server.takeTask
        split
        · next hidle => exact absurd hidle hp
        · rfl
      exact ⟨congrArg Server.persister hsame, congrArg Server.notified hsame⟩
    | persist => exact absurd rfl he
    | _ => exact ⟨rfl, rfl⟩

/-- A blob gets into the history when the persister notifies the watchers of it. -/
theorem step_notified {e : ServerEvent} {blob : ModifiedBlob}
    (h : blob ∈ (s.step env e).notified) :
    blob ∈ s.notified ∨ e = .persist ∧ s.persister = .notifying blob := by
  unfold Server.step at h
  split at h
  · exact .inl h
  · cases e with
    | hangUp i => exact .inl ((sameIndex_hangUp i).notified ▸ h)
    | turn i n => exact .inl ((sameIndex_turn i n).notified ▸ h)
    | takeTask now =>
      refine .inl ?_
      simp only [Server.takeTask] at h
      repeat' split at h
      all_goals exact h
    | persist =>
      simp only [Server.persist] at h
      split at h
      · exact .inl h
      · exact .inl h
      · split at h
        · exact .inl h
        · exact .inl h
        · exact .inl h
      · next task lastModified res hp => exact .inl ((sameIndex_unlockDone task.owner res).notified ▸ h)
      · next blob' hp =>
        rcases List.mem_append.mp h with hold | hnew
        · exact .inl hold
        · rw [List.mem_singleton.mp hnew]
          exact .inr ⟨rfl, hp⟩
    | _ => exact .inl h

variable {run : Nat → ServerEvent} {i : Nat}

theorem running_at (h : FairWatch env run i) (n : Nat) : (stateAt env run n).running = true := by
  induction n with
  | zero => rfl
  | succ n ih => exact (step_running (h.running n)).trans ih

theorem slotsOwned_at (env : StorageEnv) (run : Nat → ServerEvent) (n : Nat) :
    SlotsOwned (stateAt env run n) :=
  trace_invariant SlotsOwned slotsOwned_start (fun _ e h => slotsOwned_step h e) n

theorem indexed_at (hkeys : ∀ n, ((stateAt env run n).appended.map (·.key)).Nodup) (n : Nat) :
    Indexed (stateAt env run n) := by
  induction n with
  | zero => exact indexed_start
  | succ n ih => exact (indexed_step ih (hkeys (n + 1))).2

theorem appended_mono (hkeys : ∀ n, ((stateAt env run n).appended.map (·.key)).Nodup) {n m : Nat}
    (h : n ≤ m) : (stateAt env run n).appended <+: (stateAt env run m).appended := by
  induction h with
  | refl => exact List.prefix_refl _
  | @step m hle ih => exact ih.trans (indexed_step (indexed_at hkeys m) (hkeys (m + 1))).1

/-- A blob that got into the history was notified of at some time since. -/
theorem exists_notifying {blob : ModifiedBlob} {n m : Nat} (hle : n ≤ m)
    (hnew : blob ∉ (stateAt env run n).notified) (h : blob ∈ (stateAt env run m).notified) :
    ∃ m', n ≤ m' ∧ run m' = .persist ∧ (stateAt env run m').persister = .notifying blob := by
  induction hle with
  | refl => exact absurd h hnew
  | @step m hle ih =>
    rcases step_notified h with hold | ⟨he, hp⟩
    · exact ih hold
    · exact ⟨m, hle, he, hp⟩

/-- The steps until the watchers are notified. -/
def persisterRank : Persister → Nat
  | .notifying _ => 0
  | _ => 1

theorem unnotified_cases {s : Server} {blob : ModifiedBlob} (h : blob ∈ s.unnotified) :
    (∃ task lastModified, s.persister = .finished task lastModified .ok ∧
      blob = Server.taskModified task lastModified) ∨ s.persister = .notifying blob := by
  unfold Server.unnotified at h
  split at h
  · next task lastModified hp => exact .inl ⟨task, lastModified, hp, List.mem_singleton.mp h⟩
  · next blob' hp =>
    rw [List.mem_singleton.mp h]
    exact .inr hp
  · exact absurd h List.not_mem_nil

/-- The watchers are notified of every appended blob. -/
theorem eventually_notifying (h : FairWatch env run i) {blob : ModifiedBlob} {n m : Nat}
    (hle : n ≤ m) (hnew : blob ∉ (stateAt env run n).notified)
    (hblob : blob ∈ (stateAt env run m).appended) :
    ∃ m', n ≤ m' ∧ run m' = .persist ∧ (stateAt env run m').persister = .notifying blob := by
  rcases List.mem_append.mp hblob with hold | hblob
  · exact exists_notifying hle hnew hold
  · have hgoal : ∃ m'', m ≤ m'' ∧ ∃ m', n ≤ m' ∧ run m' = .persist ∧
        (stateAt env run m').persister = .notifying blob := by
      refine eventually_of_rank (fun m => run m = .persist)
        (fun m => n ≤ m ∧ blob ∈ (stateAt env run m).unnotified)
        (fun _ => ∃ m', n ≤ m' ∧ run m' = .persist ∧
          (stateAt env run m').persister = .notifying blob)
        (fun m => persisterRank (stateAt env run m).persister) h.persists ?_ ⟨hle, hblob⟩
      rintro m ⟨hle, hm⟩
      by_cases hrun : run m = .persist
      · rcases unnotified_cases hm with ⟨task, lastModified, hp, rfl⟩ | hp
        · have hnext : (stateAt env run (m + 1)).persister =
              .notifying (Server.taskModified task lastModified) := by
            show ((stateAt env run m).step env (run m)).persister = _
            rw [hrun, Server.step, h.alive m, if_neg Bool.false_ne_true]
            simp only [Server.persist, hp, if_true]
          refine .inr ⟨⟨Nat.le_succ_of_le hle, ?_⟩, ?_, fun _ => ?_⟩
          · rw [Server.unnotified, hnext]
            exact List.mem_singleton.mpr rfl
          · rw [hnext]
            exact Nat.zero_le _
          · rw [hnext, hp]
            exact Nat.zero_lt_one
        · exact .inl ⟨m, hle, hrun, hp⟩
      · have hidle : (stateAt env run m).persister ≠ .idle := by
          rcases unnotified_cases hm with ⟨task, lastModified, hp, -⟩ | hp
          · rw [hp]
            exact Persister.noConfusion
          · rw [hp]
            exact Persister.noConfusion
        have hsame : (stateAt env run (m + 1)).persister = (stateAt env run m).persister :=
          (step_persister hrun hidle).1
        refine .inr ⟨⟨Nat.le_succ_of_le hle, ?_⟩, ?_, fun hturn => absurd hturn hrun⟩
        · rw [Server.unnotified, hsame]
          exact hm
        · rw [hsame]
    exact hgoal.choose_spec.2

end Persister

/-! ## The watch in a run -/

section Watch

variable {env : StorageEnv} {run : Nat → ServerEvent} {i k : Nat} {f : BlobFilter}

/-- What one step of a run does to the live watch. -/
theorem watch_at (h : FairWatch env run i) (hsort : f.sortOrder = sortOrderLastModified)
    (hbound : f.lastModifiedAfter ≤ llongMax) {n : Nat}
    (hw : Watching f k ((stateAt env run n).connection i).worker) {o : Observer}
    (ho : (stateAt env run n).watchers[k]? = some (some o)) :
    WatchStep env i k f o (stateAt env run n) (stateAt env run (n + 1)) (run n) :=
  watch_cases (slotsOwned_at env run n) (h.alive n) (running_at h n) hsort hbound hw ho (h.stays n)

/-- The queue of the watch is registered and has the property. -/
def Has (K : Observer → Prop) (f : BlobFilter) (k : Nat) (s : Server) : Prop :=
  ∃ o, s.watchers[k]? = some (some o) ∧ o.filter = f ∧ K o

/-- A property that messages keep. -/
def Stable (K : Observer → Prop) : Prop :=
  ∀ o blob, K o → K (o.notify blob).2

theorem has_quiet {K : Observer → Prop} (hK : Stable K) {s s' : Server} {o o' : Observer}
    {e : ServerEvent} (hfilter : o.filter = f) (hKo : K o)
    (hwatchers : s'.watchers[k]? = some (some o'))
    (hsame : o' = o ∨ ∃ blob, e = .persist ∧ s.persister = .notifying blob ∧
      o' = (o.notify blob).2) : Has K f k s' := by
  rcases hsame with rfl | ⟨blob, -, -, rfl⟩
  · exact ⟨o', hwatchers, hfilter, hKo⟩
  · exact ⟨_, hwatchers, (notify_filter o blob).trans hfilter, hK o blob hKo⟩

/-- The worker comes to list the index. -/
theorem eventually_listed (h : FairWatch env run i) (hsort : f.sortOrder = sortOrderLastModified)
    (hbound : f.lastModifiedAfter ≤ llongMax) {K : Observer → Prop} (hK : Stable K) {n : Nat}
    (hw : ((stateAt env run n).connection i).worker = .listBlobs f (some k))
    (hhas : Has K f k (stateAt env run n)) :
    ∃ m blobs, n ≤ m ∧ glacierListBlobs env (stateAt env run m).glacier.db f = some blobs ∧
      ((stateAt env run (m + 1)).connection i).worker = .sendList (some k) blobs ∧
      Has K f k (stateAt env run (m + 1)) := by
  have hgoal : ∃ m', n ≤ m' ∧ ∃ m blobs, m' = m + 1 ∧ n ≤ m ∧
      glacierListBlobs env (stateAt env run m).glacier.db f = some blobs ∧
      ((stateAt env run (m + 1)).connection i).worker = .sendList (some k) blobs ∧
      Has K f k (stateAt env run (m + 1)) := by
    refine eventually_of_rank (fun m => ∃ x, run m = .turn i x)
      (fun m => n ≤ m ∧ ((stateAt env run m).connection i).worker = .listBlobs f (some k) ∧
        Has K f k (stateAt env run m)) _ (fun _ => 0) h.turns ?_ ⟨Nat.le_refl n, hw, hhas⟩
    rintro m ⟨hle, hw, o, ho, hfilter, hKo⟩
    have hwatching : Watching f k ((stateAt env run m).connection i).worker := by
      rw [hw]
      exact ⟨rfl, rfl⟩
    cases watch_at h hsort hbound hwatching ho with
    | quiet o' hturn hconnection hwatchers hsame =>
      refine .inr ⟨⟨Nat.le_succ_of_le hle, hconnection ▸ hw, has_quiet hK hfilter hKo hwatchers hsame⟩,
        Nat.le_refl _, fun ⟨x, hx⟩ => absurd hx (hturn x)⟩
    | listed blobs _ hlist hconnection hwatchers =>
      refine .inl ⟨m, blobs, rfl, hle, hlist, ?_, o, hwatchers, hfilter, hKo⟩
      rw [hconnection]
      rfl
    | took hw' =>
      rw [hw] at hw'
      rcases hw' with ⟨hw', -⟩ | hw'
      · cases hw'
      · cases hw'
    | reported _ _ hw' =>
      rw [hw] at hw'
      cases hw'
    | drained hw' | failed hw' | waits hw' | woken hw' =>
      rw [hw] at hw'
      cases hw'
  obtain ⟨-, -, m, blobs, -, hm⟩ := hgoal
  exact ⟨m, blobs, hm⟩

/-- How much of the list is left. -/
def listRank : Worker → Nat
  | .sendList _ blobs => blobs.length
  | _ => 0

/-- The worker comes to take from its queue, and has reported what it listed. -/
theorem eventually_drained (h : FairWatch env run i) (hsort : f.sortOrder = sortOrderLastModified)
    (hbound : f.lastModifiedAfter ≤ llongMax) {K : Observer → Prop} (hK : Stable K) {n : Nat}
    {blobs : List ModifiedBlob}
    (hw : ((stateAt env run n).connection i).worker = .sendList (some k) blobs)
    (hhas : Has K f k (stateAt env run n)) :
    ∃ m, n ≤ m ∧ ((stateAt env run m).connection i).worker = .takeBlob k ∧
      Has K f k (stateAt env run m) ∧
      ∀ blob ∈ blobs, .modified blob ∈ ((stateAt env run m).connection i).replies := by
  refine eventually_of_rank (fun m => ∃ x, run m = .turn i x)
    (fun m => ∃ rest, ((stateAt env run m).connection i).worker = .sendList (some k) rest ∧
      Has K f k (stateAt env run m) ∧ ∀ blob ∈ blobs, blob ∈ rest ∨
        .modified blob ∈ ((stateAt env run m).connection i).replies) _
    (fun m => listRank ((stateAt env run m).connection i).worker) h.turns ?_
    ⟨blobs, hw, hhas, fun _ => .inl⟩
  rintro m ⟨rest, hw, ⟨o, ho, hfilter, hKo⟩, hsent⟩
  have hwatching : Watching f k ((stateAt env run m).connection i).worker := by
    rw [hw]
    rfl
  cases watch_at h hsort hbound hwatching ho with
  | quiet o' hturn hconnection hwatchers hsame =>
    rw [hconnection]
    exact .inr ⟨⟨rest, hw, has_quiet hK hfilter hKo hwatchers hsame, hsent⟩, Nat.le_refl _,
      fun ⟨x, hx⟩ => absurd hx (hturn x)⟩
  | reported blob rest' hw' hconnection hwatchers =>
    rw [hw] at hw'
    cases hw'
    rw [hconnection, hw]
    refine .inr ⟨⟨rest', rfl, ⟨o, hwatchers, hfilter, hKo⟩, fun blob' hblob' => ?_⟩, Nat.le_succ _,
      fun _ => Nat.lt_succ_self _⟩
    rcases hsent blob' hblob' with hrest | hold
    · rcases List.mem_cons.mp hrest with rfl | hmem
      · exact .inr (List.mem_append_right _ (List.mem_singleton.mpr rfl))
      · exact .inl hmem
    · exact .inr (List.mem_append_left _ hold)
  | drained hw' hconnection hwatchers =>
    rw [hw] at hw'
    cases hw'
    rw [hconnection]
    refine .inl ⟨rfl, ⟨o, hwatchers, hfilter, hKo⟩, fun blob hblob => ?_⟩
    exact (hsent blob hblob).resolve_left List.not_mem_nil
  | listed _ hw' | failed hw' | waits hw' | woken hw' =>
    rw [hw] at hw'
    cases hw'
  | took hw' =>
    rw [hw] at hw'
    rcases hw' with ⟨hw', -⟩ | hw'
    · cases hw'
    · cases hw'

/-- The worker takes from its queue. -/
def Takes (k : Nat) (w : Worker) : Prop :=
  w = .takeBlob k ∨ w = .waitFill k

/-- From any of its states, the worker comes to take from its queue. -/
theorem eventually_takes (h : FairWatch env run i) (hsort : f.sortOrder = sortOrderLastModified)
    (hbound : f.lastModifiedAfter ≤ llongMax) {K : Observer → Prop} (hK : Stable K) {n : Nat}
    (hw : Watching f k ((stateAt env run n).connection i).worker)
    (hhas : Has K f k (stateAt env run n)) :
    ∃ m, n ≤ m ∧ Takes k ((stateAt env run m).connection i).worker ∧
      Has K f k (stateAt env run m) := by
  cases hworker : ((stateAt env run n).connection i).worker with
  | listBlobs f' slot =>
    rw [hworker] at hw
    obtain ⟨rfl, rfl⟩ := hw
    obtain ⟨m, blobs, hle, -, hlisted, hhas'⟩ := eventually_listed h hsort hbound hK hworker hhas
    obtain ⟨m', hle', hdrained, hhas'', -⟩ := eventually_drained h hsort hbound hK hlisted hhas'
    exact ⟨m', by omega, .inl hdrained, hhas''⟩
  | sendList slot blobs =>
    rw [hworker] at hw
    obtain rfl : slot = some k := hw
    obtain ⟨m, hle, hdrained, hhas', -⟩ := eventually_drained h hsort hbound hK hworker hhas
    exact ⟨m, hle, .inl hdrained, hhas'⟩
  | takeBlob k' =>
    rw [hworker] at hw
    obtain rfl : k' = k := hw
    exact ⟨n, Nat.le_refl n, .inl hworker, hhas⟩
  | waitFill k' =>
    rw [hworker] at hw
    obtain rfl : k' = k := hw
    exact ⟨n, Nat.le_refl n, .inr hworker, hhas⟩
  | _ =>
    rw [hworker] at hw
    exact hw.elim

/-! ## Taking from the queue -/

/-- The watch has seen that its queue overflowed. -/
def Lost (env : StorageEnv) (run : Nat → ServerEvent) (i k n m : Nat) : Prop :=
  ((stateAt env run m).connection i).worker = .ended .error ∧
    ∃ m', n ≤ m' ∧ m' < m ∧ Overflowed (stateAt env run m') k

theorem stable_overflowed : Stable fun o => o.messages.status = .temporaryOccupied := by
  intro o blob h
  unfold Observer.notify
  split
  · simp only [Queue.put_of_occupied h]
    exact h
  · exact h

theorem pending_notify (o : Observer) (blob : ModifiedBlob) :
    (o.notify blob).2.messages.pending = o.messages.pending ∨
      (o.notify blob).2.messages.pending = o.messages.pending ++ [blob] := by
  unfold Observer.notify
  split
  · rcases o.messages.pending_put blob with ⟨-, hsame⟩ | ⟨-, -, hmore⟩
    · exact .inl hsame
    · exact .inr hmore
  · exact .inl rfl

theorem stable_pending (blob : ModifiedBlob) : Stable fun o => blob ∈ o.messages.pending := by
  intro o blob' h
  rcases pending_notify o blob' with hsame | hmore
  · simp only [hsame]
    exact h
  · simp only [hmore]
    exact List.mem_append_left _ h

theorem lost_failed {n m : Nat} (hle : n ≤ m) {o : Observer}
    (ho : (stateAt env run m).watchers[k]? = some (some o)) (hstatus : o.messages.status ≠ .ok)
    (hconnection : (stateAt env run (m + 1)).connection i =
      ((stateAt env run m).connection i).goto (.ended .error)) : Lost env run i k n (m + 1) := by
  refine ⟨?_, m, hle, Nat.lt_succ_self m, o, ho, o.messages.status_known.resolve_left hstatus⟩
  rw [hconnection]
  rfl

theorem watching_of_takes {w : Worker} (h : Takes k w) : Watching f k w := by
  rcases h with rfl | rfl
  · rfl
  · rfl

/-- The steps until the worker looks at the status. -/
def statusRank : Worker → Nat
  | .waitFill _ => 1
  | _ => 0

/-- An overflow is seen. -/
theorem eventually_lost (h : FairWatch env run i) (hsort : f.sortOrder = sortOrderLastModified)
    (hbound : f.lastModifiedAfter ≤ llongMax) {n : Nat}
    (hw : Takes k ((stateAt env run n).connection i).worker)
    (hhas : Has (fun o => o.messages.status = .temporaryOccupied) f k (stateAt env run n)) :
    ∃ m, n ≤ m ∧ Lost env run i k n m := by
  refine eventually_of_rank (fun m => ∃ x, run m = .turn i x)
    (fun m => n ≤ m ∧ Takes k ((stateAt env run m).connection i).worker ∧
      Has (fun o => o.messages.status = .temporaryOccupied) f k (stateAt env run m)) _
    (fun m => statusRank ((stateAt env run m).connection i).worker) h.turns ?_
    ⟨Nat.le_refl n, hw, hhas⟩
  rintro m ⟨hle, hw, o, ho, hfilter, hocc⟩
  have hnotOk : o.messages.status ≠ .ok := by
    rw [hocc]
    exact Res.noConfusion
  cases watch_at h hsort hbound (watching_of_takes hw) ho with
  | quiet o' hturn hconnection hwatchers hsame =>
    rw [hconnection]
    exact .inr ⟨⟨Nat.le_succ_of_le hle, hw,
      has_quiet stable_overflowed hfilter hocc hwatchers hsame⟩, Nat.le_refl _,
      fun ⟨x, hx⟩ => absurd hx (hturn x)⟩
  | failed _ _ hconnection => exact .inl (lost_failed hle ho hnotOk hconnection)
  | waits _ hstatus => exact absurd hstatus hnotOk
  | woken hw' _ hconnection hwatchers =>
    rw [hconnection, hw']
    exact .inr ⟨⟨Nat.le_succ_of_le hle, .inl rfl, o, hwatchers, hfilter, hocc⟩, Nat.zero_le _,
      fun _ => Nat.zero_lt_one⟩
  | took hw' _ hconnection hwatchers =>
    have hwait := hw'.resolve_left fun hok => hnotOk hok.2
    rw [hconnection, hwait]
    exact .inr ⟨⟨Nat.le_succ_of_le hle, .inl rfl, _, hwatchers, hfilter, hocc⟩, Nat.zero_le _,
      fun _ => Nat.zero_lt_one⟩
  | listed _ hw' | reported _ _ hw' | drained hw' =>
    rcases hw with hw | hw
    · rw [hw] at hw'
      cases hw'
    · rw [hw] at hw'
      cases hw'

/-- The place of a blob in the queue. -/
def queueRank (blob : ModifiedBlob) (k : Nat) (s : Server) : Nat :=
  match s.watchers[k]? with
  | some (some o) => o.messages.pending.idxOf blob
  | _ => 0

theorem queueRank_eq {blob : ModifiedBlob} {s : Server} {o : Observer}
    (ho : s.watchers[k]? = some (some o)) : queueRank blob k s = o.messages.pending.idxOf blob := by
  rw [queueRank, ho]

/-- What is queued is reported. -/
theorem eventually_reported (h : FairWatch env run i)
    (hsort : f.sortOrder = sortOrderLastModified) (hbound : f.lastModifiedAfter ≤ llongMax)
    {blob : ModifiedBlob} {n : Nat} (hw : Takes k ((stateAt env run n).connection i).worker)
    (hhas : Has (fun o => blob ∈ o.messages.pending) f k (stateAt env run n)) :
    ∃ m, n ≤ m ∧ (Reported (stateAt env run m) i blob ∨ Lost env run i k n m) := by
  refine eventually_of_rank (fun m => ∃ x, run m = .turn i x)
    (fun m => n ≤ m ∧ Takes k ((stateAt env run m).connection i).worker ∧
      Has (fun o => blob ∈ o.messages.pending) f k (stateAt env run m)) _
    (fun m => queueRank blob k (stateAt env run m)) h.turns ?_ ⟨Nat.le_refl n, hw, hhas⟩
  rintro m ⟨hle, hw, o, ho, hfilter, hpending⟩
  have hsome (hempty : o.messages.isEmpty = true) : False := by
    rw [(Queue.isEmpty_iff _).mp hempty] at hpending
    exact List.not_mem_nil hpending
  cases watch_at h hsort hbound (watching_of_takes hw) ho with
  | quiet o' hturn hconnection hwatchers hsame =>
    have hrank : queueRank blob k (stateAt env run (m + 1)) ≤ queueRank blob k (stateAt env run m) := by
      rw [queueRank_eq hwatchers, queueRank_eq ho]
      rcases hsame with rfl | ⟨blob', -, -, rfl⟩
      · exact Nat.le_refl _
      · rcases pending_notify o blob' with hsame | hmore
        · rw [hsame]
        · rw [hmore, List.idxOf_append_of_mem hpending]
    refine .inr ⟨⟨Nat.le_succ_of_le hle, ?_, has_quiet (stable_pending blob) hfilter hpending
      hwatchers hsame⟩, hrank, fun ⟨x, hx⟩ => absurd hx (hturn x)⟩
    rw [hconnection]
    exact hw
  | failed _ hstatus hconnection => exact .inl (.inr (lost_failed hle ho hstatus hconnection))
  | waits _ _ hempty => exact (hsome hempty).elim
  | woken _ hempty => exact (hsome hempty).elim
  | took _ hne hconnection hwatchers =>
    have hsplit := Queue.pending_next hne
    by_cases heq : o.messages.next.1 = blob
    · refine .inl (.inl ⟨watchFlagEob, ?_⟩)
      rw [hconnection, ← heq]
      exact List.mem_append_right _ (List.mem_singleton.mpr rfl)
    · rw [hsplit] at hpending
      have hrest := (List.mem_cons.mp hpending).resolve_left fun hsame => heq hsame.symm
      have hrank : queueRank blob k (stateAt env run (m + 1)) <
          queueRank blob k (stateAt env run m) := by
        rw [queueRank_eq hwatchers, queueRank_eq ho, hsplit, List.idxOf_cons_ne _ heq]
        exact Nat.lt_succ_self _
      refine .inr ⟨⟨Nat.le_succ_of_le hle, ?_, _, hwatchers, hfilter, hrest⟩, Nat.le_of_lt hrank,
        fun _ => hrank⟩
      rw [hconnection]
      exact .inl rfl
  | listed _ hw' | reported _ _ hw' | drained hw' =>
    rcases hw with hw | hw
    · rw [hw] at hw'
      cases hw'
    · rw [hw] at hw'
      cases hw'

/-! ## From the start of the watch -/

/-- A watch becomes live when its worker registers the queue, which is empty then. -/
theorem watch_registers (h : FairWatch env run i) {n : Nat}
    (hbefore : ((stateAt env run n).connection i).worker = .addWatcher f)
    (hafter : ((stateAt env run (n + 1)).connection i).worker = .listBlobs f (some k)) :
    (∃ x, run n = .turn i x) ∧ f.sortOrder = sortOrderLastModified ∧
      (stateAt env run (n + 1)).watchers[k]? = some (some ⟨f, .create msgsLenExp⟩) := by
  have hsucc : stateAt env run (n + 1) = (stateAt env run n).step env (run n) := rfl
  have hmoved : (stateAt env run (n + 1)).connection i ≠ (stateAt env run n).connection i := by
    intro hsame
    rw [hsame, hbefore] at hafter
    cases hafter
  have hwait : ((stateAt env run n).connection i).worker ≠ .waitForTask := by
    rw [hbefore]
    exact Worker.noConfusion
  have hof : (run n).Of i :=
    Classical.byContradiction fun hof => hmoved (connection_frame env hwait hof)
  cases hrun : run n with
  | receive j data =>
    rw [hrun] at hof
    obtain rfl : j = i := hof
    refine absurd ?_ hmoved
    rw [hsucc, hrun, Server.step, h.alive n, if_neg Bool.false_ne_true]
    simp only [Connection.receive, hbefore, Server.setConnection_self]
  | hangUp j =>
    rw [hrun] at hof
    obtain rfl : j = i := hof
    exact absurd hrun (h.stays n)
  | turn j x =>
    rw [hrun] at hof
    obtain rfl : j = i := hof
    rw [hsucc, hrun, Server.step, h.alive n, if_neg Bool.false_ne_true] at hafter ⊢
    simp only [Server.turn, hbefore] at hafter ⊢
    split at hafter
    · next hsort =>
      rw [if_pos hsort]
      split at hafter
      · simp only [Server.setConnection_self, Connection.goto] at hafter
        cases hafter
      · next slot watchers hreg =>
        obtain ⟨hfree, rfl, hlt⟩ := notifyRegister_spec hreg
        simp only [Server.setConnection_self, Connection.goto, Worker.listBlobs.injEq,
          Option.some.injEq, true_and] at hafter
        subst hafter
        exact ⟨⟨x, rfl⟩, hsort, List.getElem?_set_self hlt⟩
    · simp only [Server.setConnection_self, Connection.goto] at hafter
      cases hafter
  | _ =>
    rw [hrun] at hof
    exact hof.elim

/-- A connection that ended stays so. -/
theorem ended_at {n m : Nat} {res : Res} (hle : n ≤ m)
    (hended : ((stateAt env run n).connection i).worker = .ended res) :
    ((stateAt env run m).connection i).worker = .ended res := by
  induction hle with
  | refl => exact hended
  | @step m hle ih =>
    show (((stateAt env run m).step env (run m)).connection i).worker = .ended res
    by_cases hof : (run m).Of i
    · unfold Server.step
      split
      · exact ih
      · cases hrun : run m with
        | receive j data =>
          rw [hrun] at hof
          obtain rfl : j = i := hof
          simp only [Connection.receive, ih, Server.setConnection_self]
        | hangUp j | turn j x =>
          rw [hrun] at hof
          obtain rfl : j = i := hof
          simp only [Server.hangUp, Server.turn, ih]
        | _ =>
          rw [hrun] at hof
          exact hof.elim
    · have hwait : ((stateAt env run m).connection i).worker ≠ .waitForTask := by
        rw [ih]
        exact Worker.noConfusion
      rw [connection_frame env hwait hof]
      exact ih

/-- A live watch stays live until it sees that its queue overflowed. -/
theorem live_or_lost (h : FairWatch env run i) (hsort : f.sortOrder = sortOrderLastModified)
    (hbound : f.lastModifiedAfter ≤ llongMax) {n : Nat}
    (hw : Watching f k ((stateAt env run n).connection i).worker)
    (hhas : Has (fun _ => True) f k (stateAt env run n)) {m : Nat} (hle : n ≤ m) :
    (Watching f k ((stateAt env run m).connection i).worker ∧
      Has (fun _ => True) f k (stateAt env run m)) ∨ ∃ m' ≤ m, Lost env run i k n m' := by
  induction hle with
  | refl => exact .inl ⟨hw, hhas⟩
  | @step m hle ih =>
    rcases ih with ⟨hw, o, ho, hfilter, -⟩ | ⟨m', hle', hlost⟩
    · have hlive (w : Worker) (hworker : ((stateAt env run (m + 1)).connection i).worker = w)
          (hw : Watching f k w) (o : Observer) (hfilter : o.filter = f)
          (ho : (stateAt env run (m + 1)).watchers[k]? = some (some o)) :
          Watching f k ((stateAt env run (m + 1)).connection i).worker ∧
            Has (fun _ => True) f k (stateAt env run (m + 1)) :=
        ⟨hworker ▸ hw, o, ho, hfilter, trivial⟩
      cases watch_at h hsort hbound hw ho with
      | quiet o' hturn hconnection hwatchers hsame =>
        refine .inl ⟨?_, has_quiet (fun _ _ => id) hfilter trivial hwatchers hsame⟩
        rw [hconnection]
        exact hw
      | listed blobs _ _ hconnection hwatchers | reported _ blobs _ hconnection hwatchers =>
        exact .inl (hlive (.sendList (some k) blobs) (by rw [hconnection]; rfl) rfl o hfilter hwatchers)
      | drained _ hconnection hwatchers | woken _ _ hconnection hwatchers =>
        exact .inl (hlive (.takeBlob k) (by rw [hconnection]; rfl) rfl o hfilter hwatchers)
      | waits _ _ _ hconnection hwatchers =>
        exact .inl (hlive (.waitFill k) (by rw [hconnection]; rfl) rfl o hfilter hwatchers)
      | took _ _ hconnection hwatchers =>
        exact .inl (hlive (.takeBlob k) (by rw [hconnection]; rfl) rfl
          { o with messages := o.messages.next.2 } hfilter hwatchers)
      | failed _ hstatus hconnection =>
        exact .inr ⟨m + 1, Nat.le_refl _, lost_failed hle ho hstatus hconnection⟩
    · exact .inr ⟨m', Nat.le_succ_of_le hle', hlost⟩

/-- A blob that the watchers were notified of before the watch is in its list. -/
theorem eventually_reported_listed (h : FairWatch env run i)
    (hkeys : ∀ m, ((stateAt env run m).appended.map (·.key)).Nodup)
    (hsort : f.sortOrder = sortOrderLastModified) (hbound : f.lastModifiedAfter ≤ llongMax)
    {n : Nat} (hw : ((stateAt env run n).connection i).worker = .listBlobs f (some k))
    (hhas : Has (fun _ => True) f k (stateAt env run n)) {blob : ModifiedBlob}
    (hblob : blob ∈ (stateAt env run n).appended) (hflags : f.passes blob.flags = true)
    (hafter : (f.lastModifiedAfter : Int) ≤ toInt64 blob.lastModified) :
    ∃ m, n ≤ m ∧ Reported (stateAt env run m) i blob := by
  obtain ⟨m, blobs, hle, hlist, hlisted, hhas'⟩ :=
    eventually_listed h hsort hbound (fun _ _ => id) hw hhas
  obtain ⟨row, hrow, hof⟩ :=
    (indexed_at hkeys m).appended blob ((appended_mono hkeys hle).subset hblob)
  obtain ⟨flags, hmem⟩ := mem_glacierListBlobs hsort hbound hlist hrow hof hflags hafter
  obtain ⟨m', hle', -, -, hsent⟩ := eventually_drained h hsort hbound (fun _ _ => id) hlisted hhas'
  exact ⟨m', by omega, flags, hsent _ hmem⟩

/-- An overflow ends the watch. -/
theorem eventually_ended (h : FairWatch env run i) (hsort : f.sortOrder = sortOrderLastModified)
    (hbound : f.lastModifiedAfter ≤ llongMax) {n : Nat}
    (hw : Watching f k ((stateAt env run n).connection i).worker)
    (hhas : Has (fun o => o.messages.status = .temporaryOccupied) f k (stateAt env run n)) :
    ∃ m, n ≤ m ∧ Lost env run i k n m := by
  obtain ⟨m, hle, htakes, hhas'⟩ := eventually_takes h hsort hbound stable_overflowed hw hhas
  obtain ⟨m', hle', hended, m'', hle'', hlt, hover⟩ := eventually_lost h hsort hbound htakes hhas'
  exact ⟨m', hle.trans hle', hended, m'', hle.trans hle'', hlt, hover⟩

/-- A blob that the watchers are notified of while the watch is live is in its queue. -/
theorem eventually_reported_notified (h : FairWatch env run i)
    (hsort : f.sortOrder = sortOrderLastModified) (hbound : f.lastModifiedAfter ≤ llongMax)
    {n : Nat} (hw : Watching f k ((stateAt env run n).connection i).worker) {o : Observer}
    (ho : (stateAt env run n).watchers[k]? = some (some o)) (hfilter : o.filter = f)
    (hrun : run n = .persist) {blob : ModifiedBlob}
    (hp : (stateAt env run n).persister = .notifying blob)
    (hflags : f.passes blob.flags = true) :
    ∃ m, n ≤ m ∧ (Reported (stateAt env run m) i blob ∨ Lost env run i k n m) := by
  have hnext : stateAt env run (n + 1) = (stateAt env run n).persist := by
    show (stateAt env run n).step env (run n) = _
    rw [hrun, Server.step, h.alive n, if_neg Bool.false_ne_true]
  have hwait : ((stateAt env run n).connection i).worker ≠ .waitForTask := by
    intro hworker
    rw [hworker] at hw
    exact hw.elim
  have hnotOf : ¬ (run n).Of i := by
    rw [hrun]
    exact id
  have hconnection : (stateAt env run (n + 1)).connection i = (stateAt env run n).connection i :=
    connection_frame env hwait hnotOf
  have hw' : Watching f k ((stateAt env run (n + 1)).connection i).worker := by
    rw [hconnection]
    exact hw
  have hwatchers : (stateAt env run (n + 1)).watchers[k]? =
      some (some ⟨o.filter, (o.messages.put blob).2⟩) := by
    have hput : (o.notify blob).2 = ⟨o.filter, (o.messages.put blob).2⟩ := by
      rw [Observer.notify, hfilter, if_pos hflags]
    rw [hnext, ← hput]
    simp only [Server.persist, hp]
    exact getElem?_notifySend ho blob
  rcases o.messages.pending_put blob with ⟨hocc, -⟩ | ⟨-, -, hpending⟩
  · obtain ⟨m, hle, hended, m', hle', hlt, hover⟩ :=
      eventually_ended h hsort hbound hw' ⟨_, hwatchers, hfilter, hocc⟩
    exact ⟨m, by omega, .inr ⟨hended, m', by omega, hlt, hover⟩⟩
  · have hmem : blob ∈ (o.messages.put blob).2.pending := by
      rw [hpending]
      exact List.mem_append_right _ (List.mem_singleton.mpr rfl)
    obtain ⟨m, hle, htakes, hhas⟩ :=
      eventually_takes h hsort hbound (stable_pending blob) hw' ⟨_, hwatchers, hfilter, hmem⟩
    obtain ⟨m', hle', hsent | ⟨hended, m'', hle'', hlt, hover⟩⟩ :=
      eventually_reported h hsort hbound htakes hhas
    · exact ⟨m', by omega, .inl hsent⟩
    · exact ⟨m', by omega, .inr ⟨hended, m'', by omega, hlt, hover⟩⟩

end Watch

end DeliveryLemmas

open DeliveryLemmas WatchLemmas

/-- A watch becomes live in step `n` of a fair run. Every blob that is appended at any time
and passes the filter is reported to it, a blob of which the watchers were notified before
step `n` if its time is not before the bound, or the connection ends with an error after the
queue overflowed. A queue that overflows ends the connection. -/
theorem watch_loses_no_blob (env : StorageEnv) (run : Nat → ServerEvent) (i : Nat)
    (hfair : FairWatch env run i)
    (hkeys : ∀ m, ((stateAt env run m).appended.map (·.key)).Nodup) {n slot : Nat} {f : BlobFilter}
    (hbefore : ((stateAt env run n).connection i).worker = .addWatcher f)
    (hafter : ((stateAt env run (n + 1)).connection i).worker = .listBlobs f (some slot))
    (hbound : f.lastModifiedAfter ≤ llongMax) :
    (∀ t, ∀ blob ∈ (stateAt env run t).appended, f.passes blob.flags = true →
      (blob ∈ (stateAt env run n).notified →
        (f.lastModifiedAfter : Int) ≤ toInt64 blob.lastModified) →
      ∃ m, n < m ∧ (Reported (stateAt env run m) i blob ∨
        ((stateAt env run m).connection i).worker = .ended .error ∧
          ∃ m', n < m' ∧ m' < m ∧ Overflowed (stateAt env run m') slot)) ∧
    ∀ m, n < m → Watching f slot ((stateAt env run m).connection i).worker →
      Overflowed (stateAt env run m) slot →
      ∃ m', m < m' ∧ ((stateAt env run m').connection i).worker = .ended .error := by
  obtain ⟨⟨x, hturn⟩, hsort, hslot⟩ := watch_registers hfair hbefore hafter
  have hw : Watching f slot ((stateAt env run (n + 1)).connection i).worker := by
    rw [hafter]
    exact ⟨rfl, rfl⟩
  have hhas : Has (fun _ => True) f slot (stateAt env run (n + 1)) := ⟨_, hslot, rfl, trivial⟩
  constructor
  · intro t blob hblob hflags hold
    by_cases hnotified : blob ∈ (stateAt env run n).notified
    · have hmem : blob ∈ (stateAt env run (n + 1)).appended :=
        (appended_mono hkeys (Nat.le_succ n)).subset (List.mem_append_left _ hnotified)
      obtain ⟨m, hle, hsent⟩ := eventually_reported_listed hfair hkeys hsort hbound hafter hhas
        hmem hflags (hold hnotified)
      exact ⟨m, hle, .inl hsent⟩
    · have hlater : blob ∈ (stateAt env run (max n t)).appended :=
        (appended_mono hkeys (Nat.le_max_right n t)).subset hblob
      obtain ⟨m, hle, hrun, hp⟩ :=
        eventually_notifying hfair (Nat.le_max_left n t) hnotified hlater
      have hne : m ≠ n := by
        rintro rfl
        rw [hturn] at hrun
        cases hrun
      have hlt : n + 1 ≤ m := Nat.lt_of_le_of_ne hle (Ne.symm hne)
      rcases live_or_lost hfair hsort hbound hw hhas hlt with ⟨hlive, o, ho, hfilter, -⟩ | hlost
      · obtain ⟨m', hle', hsent | ⟨hended, m'', hle'', hlt', hover⟩⟩ :=
          eventually_reported_notified hfair hsort hbound hlive ho hfilter hrun hp hflags
        · exact ⟨m', by omega, .inl hsent⟩
        · exact ⟨m', by omega, .inr ⟨hended, m'', by omega, hlt', hover⟩⟩
      · obtain ⟨m', -, hended, m'', hle'', hlt', hover⟩ := hlost
        exact ⟨m', by omega, .inr ⟨hended, m'', hle'', hlt', hover⟩⟩
  · rintro m hlt hlive ⟨o, ho, hstatus⟩
    rcases live_or_lost hfair hsort hbound hw hhas hlt with ⟨-, o', ho', hfilter, -⟩ | hlost
    · rw [ho] at ho'
      cases ho'
      obtain ⟨m', hle, hended, m'', hle'', hlt', -⟩ :=
        eventually_ended hfair hsort hbound hlive ⟨o, ho, hfilter, hstatus⟩
      exact ⟨m', by omega, hended⟩
    · obtain ⟨m', hle, hended, -⟩ := hlost
      rw [ended_at hle hended] at hlive
      exact hlive.elim

/-- A client watches, another one uploads the blob "x", and the persister takes the task. -/
def watchThenUpload : List ServerEvent :=
  [.receive 1 [0x04, 0, 0, 0, 10], .receive 1 [0x01, 0, 0, 0, 0, 0, 0, 0, 0, 0], .turn 1 0,
    .receive 0 [0x02, 0, 0, 0, 30], .receive 0 letterBlob.key.toList, .receive 0 [0],
    .receive 0 [0x78], .turn 0 0, .takeTask 7]

/-- Then the worker of the watch and the persister take turns. -/
def watchLetter (n : Nat) : ServerEvent :=
  match watchThenUpload[n]? with
  | some e => e
  | none => if n % 2 = 0 then .turn 1 0 else .persist

namespace DeliveryLemmas

theorem watchLetter_ne {e : ServerEvent} (h : e ∉ watchThenUpload) (hturn : .turn 1 0 ≠ e)
    (hpersist : .persist ≠ e) (n : Nat) : watchLetter n ≠ e := by
  unfold watchLetter
  split
  · next e' he' =>
    rintro rfl
    exact h (List.mem_of_getElem? he')
  · split
    · exact hturn
    · exact hpersist

theorem watchLetter_of_ge {n : Nat} (h : 9 ≤ n) :
    watchLetter n = if n % 2 = 0 then .turn 1 0 else .persist := by
  rw [watchLetter, List.getElem?_eq_none h]

theorem turn_halted (env : StorageEnv) (s : Server) (i n : Nat) :
    (s.turn env i n).halted = s.halted := by
  have hend (slot : Option Nat) (res : Res) : (s.endWatch i slot res).halted = s.halted := by
    cases slot with
    | none => rfl
    | some k => rfl
  unfold Server.turn
  simp only
  repeat' split
  all_goals first | rfl | exact hend _ _

def isIdle : Persister → Bool
  | .idle => true
  | _ => false

theorem eq_idle_of_isIdle {p : Persister} (h : isIdle p = true) : p = .idle := by
  cases p with
  | idle => rfl
  | appending _ _ _ => cases h
  | finished _ _ _ => cases h
  | notifying _ => cases h

/-- The persister is done after 34 steps. -/
theorem watchLetter_done {n : Nat} (h : 34 ≤ n) :
    (stateAt (.inOrder sampleHash 1024) watchLetter n).halted = false ∧
      (stateAt (.inOrder sampleHash 1024) watchLetter n).persister = .idle ∧
      (stateAt (.inOrder sampleHash 1024) watchLetter n).notified = [⟨letterBlob.key, 7, 0⟩] := by
  induction h with
  | refl =>
    have hidle : isIdle (stateAt (.inOrder sampleHash 1024) watchLetter 34).persister = true := by
      decide +kernel
    exact ⟨by decide +kernel, eq_idle_of_isIdle hidle, by decide +kernel⟩
  | @step n hle ih =>
    obtain ⟨hup, hp, hnotified⟩ := ih
    rw [show stateAt (.inOrder sampleHash 1024) watchLetter (n + 1) =
        (stateAt (.inOrder sampleHash 1024) watchLetter n).step (.inOrder sampleHash 1024)
          (watchLetter n) from rfl, watchLetter_of_ge (Nat.le_trans (by decide) hle), Server.step.eq_def,
      hup, if_neg Bool.false_ne_true]
    by_cases heven : n % 2 = 0
    · simp only [if_pos heven]
      have hsame : SameIndex (stateAt (.inOrder sampleHash 1024) watchLetter n)
          ((stateAt (.inOrder sampleHash 1024) watchLetter n).turn (.inOrder sampleHash 1024) 1 0) :=
        sameIndex_turn 1 0
      exact ⟨(turn_halted _ _ 1 0).trans hup, hsame.persister.trans hp, hsame.notified.trans hnotified⟩
    · simp only [if_neg heven, Server.persist, hp]
      exact ⟨hup, trivial, hnotified⟩

theorem fairWatch_watchLetter : FairWatch (.inOrder sampleHash 1024) watchLetter 1 where
  turns n := by
    refine ⟨2 * (n + 9), by omega, 0, ?_⟩
    rw [watchLetter_of_ge (by omega), if_pos (by omega)]
  persists n := by
    refine ⟨2 * (n + 9) + 1, by omega, ?_⟩
    rw [watchLetter_of_ge (by omega), if_neg (by omega)]
  stays := watchLetter_ne (by simp [watchThenUpload]) ServerEvent.noConfusion ServerEvent.noConfusion
  running := watchLetter_ne (by simp [watchThenUpload]) ServerEvent.noConfusion
    ServerEvent.noConfusion
  alive n := by
    rcases Nat.lt_or_ge n 34 with hlt | hge
    · revert n
      decide +kernel
    · exact (watchLetter_done hge).1

theorem nodup_watchLetter (n : Nat) :
    ((stateAt (.inOrder sampleHash 1024) watchLetter n).appended.map (·.key)).Nodup := by
  rcases Nat.lt_or_ge n 34 with hlt | hge
  · revert n
    decide +kernel
  · obtain ⟨-, hp, hnotified⟩ := watchLetter_done hge
    rw [Server.appended, Server.unnotified, hp, hnotified]
    exact List.nodup_singleton _

end DeliveryLemmas

/-- The blob is reported. -/
theorem watch_loses_no_blob_letter :
    ∃ m, 2 < m ∧ (Reported (stateAt (.inOrder sampleHash 1024) watchLetter m) 1
        ⟨letterBlob.key, 7, 0⟩ ∨
      ((stateAt (.inOrder sampleHash 1024) watchLetter m).connection 1).worker = .ended .error ∧
        ∃ m', 2 < m' ∧ m' < m ∧ Overflowed (stateAt (.inOrder sampleHash 1024) watchLetter m') 0) :=
  (watch_loses_no_blob (.inOrder sampleHash 1024) watchLetter 1 fairWatch_watchLetter
    nodup_watchLetter (n := 2) (f := ⟨sortOrderLastModified, 0, 0⟩) rfl rfl (by decide)).1 34
    ⟨letterBlob.key, 7, 0⟩ (by decide +kernel) (by decide) (by decide +kernel)

end Everarch
