import Everarch.Server.Watchers

/-!
# Watches

What the persister does to the index and to the queue of a live watch, and what the worker
of the watch does.

* `WatchLemmas.indexed_step`: an appended blob has its row.
* `WatchLemmas.watch_cases`: what one step does to a live watch.
-/

namespace Everarch

/-- The blob that has been appended and of which the watchers have not been notified. -/
def Server.unnotified (s : Server) : List ModifiedBlob :=
  match s.persister with
  | .finished task lastModified .ok => [Server.taskModified task lastModified]
  | .notifying blob => [blob]
  | _ => []

/-- The blobs whose `evr_glacier_append_blob` returned `evr_ok`. -/
def Server.appended (s : Server) : List ModifiedBlob :=
  s.notified ++ s.unnotified

/-- The row of a blob. -/
def RowOf (blob : ModifiedBlob) (row : BlobPosition) : Prop :=
  row.key = blob.key ∧ row.flags = blob.flags ∧ row.lastModified = toInt64 blob.lastModified ∧
    blob.lastModified < 2 ^ 64

/-- Calls that do not add a blob to the index. -/
def NoInsert (ops : List Op) : Prop :=
  ∀ op ∈ ops, ∀ ref flags blobOffset blobSize lastModified,
    op ≠ .insertBlob ref flags blobOffset blobSize lastModified

/-- The calls of an append that has not added its blob to the index. -/
def Inserts (task : Task) (lastModified : UInt64) (ops : List Op) : Prop :=
  ∃ before blobOffset blobSize endOffset, NoInsert before ∧
    ops = before ++ [.insertBlob task.blob.key task.blob.flags blobOffset blobSize
      lastModified.toNat, .updateEndOffset endOffset]

/-- The calls of an append that has added its blob to the index. -/
def Inserted (ops : List Op) : Prop :=
  ops = [] ∨ ∃ endOffset, ops = [.updateEndOffset endOffset]

/-- Every appended blob has its row, and every other row is that of the blob that is being
appended. -/
structure Indexed (s : Server) : Prop where
  appended : ∀ blob ∈ s.appended, ∃ row ∈ s.glacier.db.blobPosition, RowOf blob row
  rows : ∀ row ∈ s.glacier.db.blobPosition, (∃ blob ∈ s.appended, RowOf blob row) ∨
    ∃ task lastModified ops, s.persister = .appending task lastModified ops ∧ Inserted ops ∧
      RowOf (Server.taskModified task lastModified) row
  shape : ∀ task lastModified ops, s.persister = .appending task lastModified ops →
    Inserts task lastModified ops ∨ Inserted ops ∧
      ((∃ row ∈ s.glacier.db.blobPosition, RowOf (Server.taskModified task lastModified) row) ∨
        ∃ blob ∈ s.appended, blob.key = task.blob.key)

/-- The states of the worker of a live watch. -/
def Watching (f : BlobFilter) (k : Nat) : Worker → Prop
  | .listBlobs f' slot => f' = f ∧ slot = some k
  | .sendList slot _ => slot = some k
  | .takeBlob k' => k' = k
  | .waitFill k' => k' = k
  | _ => False

/-- What can happen to a live watch. -/
inductive WatchStep (env : StorageEnv) (i k : Nat) (f : BlobFilter) (o : Observer) (s s' : Server)
    (e : ServerEvent) : Prop
  | quiet (o' : Observer) (hturn : ∀ n, e ≠ .turn i n)
      (hconnection : s'.connection i = s.connection i)
      (hwatchers : s'.watchers[k]? = some (some o'))
      (hsame : o' = o ∨ ∃ blob, e = .persist ∧ s.persister = .notifying blob ∧
        o' = (o.notify blob).2)
  | listed (blobs : List ModifiedBlob) (hw : (s.connection i).worker = .listBlobs f (some k))
      (hlist : glacierListBlobs env s.glacier.db f = some blobs)
      (hconnection : s'.connection i = (s.connection i).goto (.sendList (some k) blobs))
      (hwatchers : s'.watchers[k]? = some (some o))
  | reported (blob : ModifiedBlob) (blobs : List ModifiedBlob)
      (hw : (s.connection i).worker = .sendList (some k) (blob :: blobs))
      (hconnection : s'.connection i =
        (s.connection i).answer (.modified blob) (.sendList (some k) blobs))
      (hwatchers : s'.watchers[k]? = some (some o))
  | drained (hw : (s.connection i).worker = .sendList (some k) [])
      (hconnection : s'.connection i = (s.connection i).goto (.takeBlob k))
      (hwatchers : s'.watchers[k]? = some (some o))
  | failed (hw : (s.connection i).worker = .takeBlob k) (hstatus : o.messages.status ≠ .ok)
      (hconnection : s'.connection i = (s.connection i).goto (.ended .error))
  | waits (hw : (s.connection i).worker = .takeBlob k) (hstatus : o.messages.status = .ok)
      (hempty : o.messages.isEmpty = true)
      (hconnection : s'.connection i = (s.connection i).goto (.waitFill k))
      (hwatchers : s'.watchers[k]? = some (some o))
  | woken (hw : (s.connection i).worker = .waitFill k) (hempty : o.messages.isEmpty = true)
      (hconnection : s'.connection i = (s.connection i).goto (.takeBlob k))
      (hwatchers : s'.watchers[k]? = some (some o))
  | took (hw : (s.connection i).worker = .takeBlob k ∧ o.messages.status = .ok ∨
        (s.connection i).worker = .waitFill k) (hsome : o.messages.isEmpty = false)
      (hconnection : s'.connection i = (s.connection i).answer (.modified
        ⟨o.messages.next.1.key, o.messages.next.1.lastModified, watchFlagEob⟩) (.takeBlob k))
      (hwatchers : s'.watchers[k]? = some (some { o with messages := o.messages.next.2 }))

namespace WatchLemmas

open AppendLemmas NotifyLemmas WatchersLemmas

/-! ## The calls of an append -/

theorem noInsert_append {ops ops' : List Op} (h : NoInsert ops) (h' : NoInsert ops') :
    NoInsert (ops ++ ops') := by
  intro op hop
  rcases List.mem_append.mp hop with hold | hnew
  · exact h op hold
  · exact h' op hnew

theorem noInsert_writePieces (offset : Nat) (pieces : List Bytes) :
    NoInsert (writePieces offset pieces) := by
  induction pieces generalizing offset with
  | nil => exact fun op hop => absurd hop List.not_mem_nil
  | cons piece pieces ih =>
    intro op hop
    rcases List.mem_cons.mp hop with rfl | hmem
    · exact fun _ _ _ _ _ => Op.noConfusion
    · exact ih _ op hmem

theorem noInsert_createNextBucketOps (ctx : WriteCtx) : NoInsert (createNextBucketOps ctx) := by
  unfold createNextBucketOps closeCurrentBucketOps
  intro op hop ref flags blobOffset blobSize lastModified
  rintro rfl
  revert hop
  split
  · simp
  · split
    · simp
    · simp

theorem inserts_appendRecordOps (pos : Nat) (task : Task) (lastModified : UInt64) :
    Inserts task lastModified (appendRecordOps pos task.blob lastModified) := by
  have hsync : NoInsert task.blob.syncOps := by
    unfold WritingBlob.syncOps
    split
    · simp [NoInsert]
    · simp [NoInsert]
  have hsyncBody : NoInsert task.blob.syncBodyOps := by
    unfold WritingBlob.syncBodyOps
    split
    · simp [NoInsert]
    · simp [NoInsert]
  refine ⟨writePieces pos (blobPieces task.blob lastModified) ++ (task.blob.syncBodyOps ++
    (([.assign fun ctx => { ctx with
        currentBucketPos := pos + (bucketBlobHeaderSize + task.blob.size) },
      .write bucketMagicNumber.length
        (beBytes bucketEndOffsetSize (pos + (bucketBlobHeaderSize + task.blob.size)))] : List Op) ++
    (task.blob.syncOps ++ ([.assign fun ctx => { ctx with
      currentBucketSync := task.blob.syncStrategy = .perBlob }] : List Op)))),
    pos + bucketBlobHeaderSize, task.blob.size, pos + (bucketBlobHeaderSize + task.blob.size),
    ?_, ?_⟩
  · refine noInsert_append (noInsert_writePieces _ _) (noInsert_append hsyncBody
      (noInsert_append ?_ (noInsert_append hsync ?_)))
    · simp [NoInsert]
    · simp [NoInsert]
  · rw [appendRecordOps_eq]
    simp only [finishOps, List.append_assoc, List.cons_append, List.nil_append]

theorem inserts_appendOps {maxBucketSize : Nat} {ctx : WriteCtx} {task : Task}
    {lastModified : UInt64} {ops : List Op}
    (h : appendOps maxBucketSize ctx task.blob lastModified = some ops) :
    Inserts task lastModified ops := by
  obtain ⟨-, heq⟩ := appendOps_eq h
  split at heq
  · obtain ⟨before, blobOffset, blobSize, endOffset, hbefore, hrecord⟩ :=
      inserts_appendRecordOps bucketHeaderSize task lastModified
    refine ⟨createNextBucketOps ctx ++ before, blobOffset, blobSize, endOffset,
      noInsert_append (noInsert_createNextBucketOps ctx) hbefore, ?_⟩
    rw [heq, hrecord, List.append_assoc]
  · rw [heq]
    exact inserts_appendRecordOps _ task lastModified

theorem blobPosition_runOp (g : Glacier) (op : Op) (h : NoInsert [op]) :
    (runOp g op).2.db.blobPosition = g.db.blobPosition := by
  cases op with
  | insertBlob ref flags blobOffset blobSize lastModified =>
    exact absurd rfl (h _ List.mem_cons_self ref flags blobOffset blobSize lastModified)
  | create =>
    simp only [runOp]
    split
    · rfl
    · rfl
  | write offset data =>
    simp only [runOp, writeCurrentBucket]
    split
    · split
      · rfl
      · rfl
    · rfl
  | insertBucket =>
    simp only [runOp]
    cases hins : insertBucket g.db g.ctx.currentBucketIndex with
    | none => rfl
    | some db =>
      rw [eq_of_insertBucket hins]
  | _ => rfl

/-- A call that fails leaves the rows alone. -/
theorem rows_of_not_ok {g g' : Glacier} {op : Op} {res : Res} (hop : runOp g op = (res, g'))
    (hres : res ≠ .ok) : g'.db.blobPosition = g.db.blobPosition := by
  have hsame := blobPosition_runOp g op
  rw [hop] at hsame
  refine hsame fun op' hop' => ?_
  rintro ref flags blobOffset blobSize lastModified rfl
  rw [← List.mem_singleton.mp hop'] at hop
  cases hop
  exact hres rfl

/-! ## The index -/

section Index

variable {env : StorageEnv} {s : Server}

/-- What `Indexed` is about. -/
structure SameIndex (s s' : Server) : Prop where
  rows : s'.glacier.db.blobPosition = s.glacier.db.blobPosition
  persister : s'.persister = s.persister
  notified : s'.notified = s.notified

theorem sameIndex_endWatch (i : Nat) (slot : Option Nat) (res : Res) :
    SameIndex s (s.endWatch i slot res) := by
  cases slot with
  | none => exact ⟨rfl, rfl, rfl⟩
  | some k => exact ⟨rfl, rfl, rfl⟩

theorem sameIndex_turn (i n : Nat) : SameIndex s (s.turn env i n) := by
  have hturned := s.turned env i n
  generalize s.turn env i n = s' at hturned ⊢
  cases hturned with
  | ended => exact sameIndex_endWatch _ _ _
  | _ => exact ⟨rfl, rfl, rfl⟩

theorem sameIndex_hangUp (i : Nat) : SameIndex s (s.hangUp i) := by
  unfold Server.hangUp
  simp only
  repeat' split
  all_goals first
    | exact ⟨rfl, rfl, rfl⟩
    | exact sameIndex_endWatch _ _ _

theorem appended_of_sameIndex {s' : Server} (h : SameIndex s s') : s'.appended = s.appended := by
  unfold Server.appended Server.unnotified
  rw [h.persister, h.notified]

theorem indexed_of_sameIndex {s' : Server} (hindexed : Indexed s) (h : SameIndex s s') :
    Indexed s' := by
  have happended := appended_of_sameIndex h
  obtain ⟨hrow, hrows, hshape⟩ := hindexed
  constructor
  · rw [happended, h.rows]
    exact hrow
  · rw [happended, h.rows, h.persister]
    exact hrows
  · rw [happended, h.rows, h.persister]
    exact hshape

/-- The persister is not appending. -/
theorem indexed_quiet {s' : Server} (hindexed : Indexed s)
    (hsame : s'.glacier.db.blobPosition = s.glacier.db.blobPosition)
    (hmore : s.appended <+: s'.appended)
    (hrow : ∀ blob ∈ s'.appended, ∃ row ∈ s.glacier.db.blobPosition, RowOf blob row)
    (hmine : ∀ task lastModified ops, s.persister = .appending task lastModified ops →
      Inserted ops → Server.taskModified task lastModified ∈ s'.appended)
    (hquiet : ∀ task lastModified ops, s'.persister ≠ .appending task lastModified ops) :
    Indexed s' := by
  refine ⟨hsame.symm ▸ hrow, fun row hmem => .inl ?_, fun task lastModified ops hp =>
    absurd hp (hquiet task lastModified ops)⟩
  rw [hsame] at hmem
  rcases hindexed.rows row hmem with ⟨blob, hblob, hof⟩ | ⟨task, lastModified, ops, hp, hins, hof⟩
  · exact ⟨blob, hmore.subset hblob, hof⟩
  · exact ⟨_, hmine task lastModified ops hp hins, hof⟩

/-- The persister does not come from an append that has reached the index, nor goes to an append. -/
theorem indexed_rest {s' : Server} (h : Indexed s)
    (hrows : s'.glacier.db.blobPosition = s.glacier.db.blobPosition)
    (happended : s'.appended = s.appended)
    (hbefore : ∀ task lastModified ops, s.persister = .appending task lastModified ops →
      ¬ Inserted ops)
    (hafter : ∀ task lastModified ops, s'.persister ≠ .appending task lastModified ops) :
    s.appended <+: s'.appended ∧ Indexed s' := by
  have hmore : s.appended <+: s'.appended := happended ▸ List.prefix_refl _
  refine ⟨hmore, indexed_quiet h hrows hmore (happended ▸ h.appended) ?_ hafter⟩
  exact fun task lastModified ops hp hins => absurd hins (hbefore task lastModified ops hp)

/-! ### Calls of an append -/

section Call

variable {task : Task} {lastModified : UInt64} {ops ops' : List Op} {g : Glacier}

/-- In an append the blob is not appended yet. -/
theorem appended_of_appending (hp : s.persister = .appending task lastModified ops) :
    s.appended = s.notified := by
  rw [Server.appended, Server.unnotified, hp]
  exact List.append_nil _

theorem appended_call (hp : s.persister = .appending task lastModified ops) (g : Glacier)
    (ops' : List Op) :
    ({ s with glacier := g, persister := .appending task lastModified ops' } : Server).appended =
      s.appended := by
  rw [appended_of_appending hp]
  exact List.append_nil _

/-- Before the insert all rows are known. -/
theorem rows_of_not_inserted (h : Indexed s) (hp : s.persister = .appending task lastModified ops)
    (hnot : ¬ Inserted ops) :
    ∀ row ∈ s.glacier.db.blobPosition, ∃ blob ∈ s.appended, RowOf blob row := by
  intro row hrow
  rcases h.rows row hrow with hknown | ⟨task', lastModified', ops', hp', hins, -⟩
  · exact hknown
  · rw [hp] at hp'
    cases hp'
    exact absurd hins hnot

/-- A call before the insert. -/
theorem indexed_before (h : Indexed s) (hp : s.persister = .appending task lastModified ops)
    (hnot : ¬ Inserted ops) (hsame : g.db.blobPosition = s.glacier.db.blobPosition)
    (hins : Inserts task lastModified ops') :
    Indexed { s with glacier := g, persister := .appending task lastModified ops' } := by
  have hnext := appended_call hp g ops'
  refine ⟨?_, fun row hrow => .inl ?_, fun task' lastModified' ops' hp' => .inl ?_⟩
  · rw [hnext]
    simp only [hsame]
    exact h.appended
  · rw [hnext]
    exact rows_of_not_inserted h hp hnot row (hsame ▸ hrow)
  · cases hp'
    exact hins

/-- The blob is added to the index unless its key is there. -/
theorem indexed_insert (h : Indexed s) (hp : s.persister = .appending task lastModified ops)
    (hnot : ¬ Inserted ops) {blobOffset blobSize : Nat}
    (hdb : g.db = addBlobToIndex s.glacier.db s.glacier.ctx.currentBucketIndex task.blob.key
      task.blob.flags blobOffset blobSize lastModified.toNat)
    (hins : Inserted ops') :
    Indexed { s with glacier := g, persister := .appending task lastModified ops' } := by
  have hnext := appended_call hp g ops'
  have hrows := rows_of_not_inserted h hp hnot
  have hof (row : BlobPosition) (hrow : row ∈ g.db.blobPosition) :
      row ∈ s.glacier.db.blobPosition ∨ RowOf (Server.taskModified task lastModified) row := by
    rw [hdb] at hrow
    rcases mem_addBlobToIndex hrow with hold | rfl
    · exact .inl hold
    · refine .inr ⟨rfl, rfl, ?_, ?_⟩
      · simp only [Server.taskModified]
      · simpa only [Server.taskModified] using lastModified.toNat_lt
  refine ⟨fun blob hblob => ?_, fun row hrow => ?_, fun task' lastModified' ops' hp' => ?_⟩
  · rw [hnext] at hblob
    obtain ⟨row, hrow, hrowOf⟩ := h.appended blob hblob
    exact ⟨row, hdb ▸ subset_addBlobToIndex hrow, hrowOf⟩
  · rw [hnext]
    rcases hof row hrow with hold | hnew
    · exact .inl (hrows row hold)
    · exact .inr ⟨task, lastModified, _, rfl, hins, hnew⟩
  · cases hp'
    refine .inr ⟨hins, ?_⟩
    rw [hnext]
    obtain ⟨row, hrow, hkey⟩ := exists_key_addBlobToIndex s.glacier.db
      s.glacier.ctx.currentBucketIndex task.blob.key task.blob.flags blobOffset blobSize
      lastModified.toNat
    rw [← hdb] at hrow
    rcases hof row hrow with hold | hnew
    · obtain ⟨blob, hblob, hrowOf⟩ := hrows row hold
      exact .inr ⟨blob, hblob, hrowOf.1.symm.trans hkey⟩
    · exact .inl ⟨row, hrow, hnew⟩

/-- The end offset is updated. -/
theorem indexed_after (h : Indexed s) (hp : s.persister = .appending task lastModified ops)
    (hsame : g.db.blobPosition = s.glacier.db.blobPosition)
    (hshape : (∃ row ∈ s.glacier.db.blobPosition,
        RowOf (Server.taskModified task lastModified) row) ∨
      ∃ blob ∈ s.appended, blob.key = task.blob.key) :
    Indexed { s with glacier := g, persister := .appending task lastModified [] } := by
  have hnext := appended_call hp g []
  refine ⟨?_, fun row hrow => ?_, fun task' lastModified' ops' hp' => .inr ?_⟩
  · rw [hnext]
    simp only [hsame]
    exact h.appended
  · rw [hnext]
    rcases h.rows row (hsame ▸ hrow) with hknown | ⟨task', lastModified', ops', hp', -, hof⟩
    · exact .inl hknown
    · rw [hp] at hp'
      cases hp'
      exact .inr ⟨task, lastModified, [], rfl, .inl rfl, hof⟩
  · cases hp'
    rw [hnext]
    simp only [hsame]
    exact ⟨.inl rfl, hshape⟩

/-- A call of the append succeeds. -/
theorem indexed_call {op : Op} (h : Indexed s)
    (hp : s.persister = .appending task lastModified (op :: ops)) (g : Glacier)
    (hg : g = (runOp s.glacier op).2) :
    Indexed { s with glacier := g, persister := .appending task lastModified ops } := by
  rcases h.shape task lastModified _ hp with hshape | ⟨hins, hshape⟩
  · obtain ⟨before, blobOffset, blobSize, endOffset, hbefore, heq⟩ := hshape
    have hnot : ¬ Inserted (op :: ops) := by
      rintro (hnil | ⟨endOffset', hone⟩)
      · cases hnil
      · rw [hone] at heq
        have hlen := congrArg List.length heq
        rw [List.length_append] at hlen
        exact absurd hlen (by simp)
    cases before with
    | nil =>
      cases heq
      have hdb : g.db = addBlobToIndex s.glacier.db s.glacier.ctx.currentBucketIndex
          task.blob.key task.blob.flags blobOffset blobSize lastModified.toNat := by
        rw [hg]
        rfl
      exact indexed_insert h hp hnot hdb (.inr ⟨endOffset, rfl⟩)
    | cons op' before =>
      cases heq
      refine indexed_before h hp hnot ?_ ⟨before, blobOffset, blobSize, endOffset,
        fun op' hop' => hbefore op' (List.mem_cons_of_mem _ hop'), rfl⟩
      rw [hg]
      refine blobPosition_runOp _ _ fun op' hop' => ?_
      exact hbefore op' (List.mem_cons.mpr (.inl (List.mem_singleton.mp hop')))
  · rcases hins with hnil | ⟨endOffset, hone⟩
    · cases hnil
    · cases hone
      refine indexed_after h hp ?_ hshape
      rw [hg]
      rfl

/-- All calls of the append have succeeded. -/
theorem indexed_done (h : Indexed s) (hp : s.persister = .appending task lastModified [])
    (hkeys : ((({ s with persister := .finished task lastModified .ok } :
      Server).appended).map (·.key)).Nodup) :
    s.appended <+: ({ s with persister := .finished task lastModified .ok } : Server).appended ∧
      Indexed { s with persister := .finished task lastModified .ok } := by
  have hnext : ({ s with persister := .finished task lastModified .ok } : Server).appended =
      s.appended ++ [Server.taskModified task lastModified] := by
    rw [appended_of_appending hp]
    rfl
  have hmine : ∃ row ∈ s.glacier.db.blobPosition,
      RowOf (Server.taskModified task lastModified) row := by
    rcases h.shape task lastModified [] hp with hins | ⟨-, hrow | ⟨blob, hblob, hkey⟩⟩
    · obtain ⟨before, blobOffset, blobSize, endOffset, -, heq⟩ := hins
      exact absurd heq.symm (List.append_ne_nil_of_right_ne_nil _ (List.cons_ne_nil _ _))
    · exact hrow
    · -- its key has been appended before
      rw [hnext, List.map_append] at hkeys
      have hdisjoint := List.disjoint_of_nodup_append hkeys
      exact absurd (List.mem_singleton.mpr rfl)
        (hdisjoint (List.mem_map.mpr ⟨blob, hblob, hkey⟩))
  refine ⟨hnext ▸ List.prefix_append _ _, indexed_quiet h rfl (hnext ▸ List.prefix_append _ _) ?_
    ?_ fun _ _ _ => Persister.noConfusion⟩
  · intro blob hblob
    rw [hnext] at hblob
    rcases List.mem_append.mp hblob with hold | hnew
    · exact h.appended blob hold
    · rw [List.mem_singleton.mp hnew]
      exact hmine
  · intro task' lastModified' ops' hp' _
    rw [hp] at hp'
    cases hp'
    rw [hnext]
    exact List.mem_append_right _ (List.mem_singleton.mpr rfl)

end Call

theorem sameIndex_unlockDone (i : Nat) (res : Res) : SameIndex s (s.unlockDone i res) := by
  unfold Server.unlockDone
  split
  · exact ⟨rfl, rfl, rfl⟩
  · exact ⟨rfl, rfl, rfl⟩

theorem indexed_takeTask (h : Indexed s) (now : UInt64) :
    s.appended <+: (s.takeTask env now).appended ∧ Indexed (s.takeTask env now) := by
  unfold Server.takeTask
  split
  · next hp =>
    have happended : s.appended = s.notified := by
      rw [Server.appended, Server.unnotified, hp]
      exact List.append_nil _
    have hbefore (task : Task) (lastModified : UInt64) (ops : List Op) :
        s.persister ≠ .appending task lastModified ops := by
      rw [hp]
      exact Persister.noConfusion
    split
    · exact ⟨List.prefix_refl _, h⟩
    · split
      · exact ⟨List.prefix_refl _, h⟩
      · next task tasks htake =>
        split
        · refine indexed_rest h rfl ?_ (fun _ _ _ hp' => absurd hp' (hbefore _ _ _))
            fun _ _ _ => Persister.noConfusion
          rw [happended]
          exact List.append_nil _
        · next ops hops =>
          have hsame : ({ s with tasks := tasks, persister := .appending task now ops } :
              Server).appended = s.appended := by
            rw [happended]
            exact List.append_nil _
          refine ⟨hsame ▸ List.prefix_refl _, hsame ▸ h.appended, fun row hrow => .inl ?_,
            fun task' lastModified' ops' hp' => .inl ?_⟩
          · rw [hsame]
            rcases h.rows row hrow with hknown | ⟨task', lastModified', ops', hp', -⟩
            · exact hknown
            · exact absurd hp' (hbefore _ _ _)
          · cases hp'
            exact inserts_appendOps hops
  · exact ⟨List.prefix_refl _, h⟩

theorem indexed_persist (h : Indexed s) (hkeys : (s.persist.appended.map (·.key)).Nodup) :
    s.appended <+: s.persist.appended ∧ Indexed s.persist := by
  unfold Server.persist at hkeys ⊢
  split
  · exact ⟨List.prefix_refl _, h⟩
  · next task lastModified hp =>
    rw [hp] at hkeys
    exact indexed_done h hp hkeys
  · next task lastModified op ops hp =>
    split
    · next g hop =>
      exact ⟨appended_call hp g ops ▸ List.prefix_refl _,
        indexed_call h hp g (congrArg Prod.snd hop).symm⟩
    · next g hop =>
      have hrows : g.db.blobPosition = s.glacier.db.blobPosition :=
        rows_of_not_ok hop fun heq => nomatch heq
      have hsame : SameIndex s { s with glacier := g, halted := true } := ⟨hrows, rfl, rfl⟩
      exact ⟨appended_of_sameIndex hsame ▸ List.prefix_refl _, indexed_of_sameIndex h hsame⟩
    · next res g hok hpanic hop =>
      refine indexed_rest h (rows_of_not_ok hop hok) ?_ ?_ fun _ _ _ => Persister.noConfusion
      · rw [appended_of_appending hp]
        exact List.append_nil _
      · intro task' lastModified' ops' hp' hins
        rw [hp] at hp'
        cases hp'
        -- the update of the end offset does not fail
        rcases hins with hnil | ⟨endOffset, hone⟩
        · cases hnil
        · cases hone
          cases hop
          exact absurd rfl hok
  · next task lastModified res hp =>
    have hunlock : SameIndex s (s.unlockDone task.owner res) := sameIndex_unlockDone task.owner res
    refine indexed_rest h hunlock.rows ?_ ?_ ?_
    · unfold Server.appended Server.unnotified
      rw [hp]
      simp only [hunlock.notified]
      cases res with
      | ok => rfl
      | _ => rfl
    · intro task' lastModified' ops' hp'
      rw [hp] at hp'
      cases hp'
    · intro task' lastModified' ops'
      simp only
      split
      · exact Persister.noConfusion
      · exact Persister.noConfusion
  · next blob hp =>
    refine indexed_rest h rfl ?_ ?_ fun _ _ _ => Persister.noConfusion
    · unfold Server.appended Server.unnotified
      rw [hp]
      exact List.append_nil _
    · intro task' lastModified' ops' hp'
      rw [hp] at hp'
      cases hp'

/-- One step of the server. -/
theorem indexed_step (h : Indexed s) {e : ServerEvent}
    (hkeys : ((s.step env e).appended.map (·.key)).Nodup) :
    s.appended <+: (s.step env e).appended ∧ Indexed (s.step env e) := by
  have hof {s' : Server} (hsame : SameIndex s s') : s.appended <+: s'.appended ∧ Indexed s' :=
    ⟨appended_of_sameIndex hsame ▸ List.prefix_refl _, indexed_of_sameIndex h hsame⟩
  unfold Server.step at hkeys ⊢
  split
  · exact ⟨List.prefix_refl _, h⟩
  · next hup =>
    rw [if_neg hup] at hkeys
    cases e with
    | receive i data => exact hof ⟨rfl, rfl, rfl⟩
    | hangUp i => exact hof (sameIndex_hangUp i)
    | turn i n => exact hof (sameIndex_turn i n)
    | takeTask now => exact indexed_takeTask h now
    | persist => exact indexed_persist h hkeys
    | shutdown => exact hof ⟨rfl, rfl, rfl⟩
    | stopPersister => exact hof ⟨rfl, rfl, rfl⟩

theorem indexed_start : Indexed .start where
  appended _ hblob := absurd hblob List.not_mem_nil
  rows _ hrow := absurd hrow List.not_mem_nil
  shape _ _ _ hp := nomatch hp

end Index

/-! ## A live watch -/

section Live

variable {env : StorageEnv} {s : Server} {i k : Nat} {f : BlobFilter} {o : Observer}

theorem slot_of_watching {w : Worker} (h : Watching f k w) : w.slot = some k := by
  cases w with
  | listBlobs f' slot => exact h.2
  | sendList slot blobs => exact h
  | takeBlob k' => exact congrArg some h
  | waitFill k' => exact congrArg some h
  | _ => exact h.elim

theorem getElem?_set_of_some {obs : Observers} {o' : Option Observer}
    (h : obs[k]? = some (some o)) : (obs.set k o')[k]? = some o' :=
  List.getElem?_set_self (List.getElem?_eq_some_iff.mp h).1

/-- A filter that is accepted. -/
theorem glacierListBlobs_live (env : StorageEnv) (hsort : f.sortOrder = sortOrderLastModified)
    (hbound : f.lastModifiedAfter ≤ llongMax) (db : IndexDb) :
    glacierListBlobs env db f = some (listBlobsLoop f none (env.byLastModified
      (db.blobPosition.filter fun r => (f.lastModifiedAfter : Int) ≤ r.lastModified))) := by
  unfold glacierListBlobs
  rw [if_neg (Nat.not_lt.mpr hbound), if_pos hsort]

/-- The worker of a live watch takes its turn. -/
theorem watch_turn (hrun : s.running = true) (hsort : f.sortOrder = sortOrderLastModified)
    (hbound : f.lastModifiedAfter ≤ llongMax) (hw : Watching f k (s.connection i).worker)
    (ho : s.watchers[k]? = some (some o)) (n : Nat) (e : ServerEvent) :
    WatchStep env i k f o s (s.turn env i n) e := by
  cases hworker : (s.connection i).worker with
  | listBlobs f' slot =>
    rw [hworker] at hw
    obtain ⟨rfl, rfl⟩ := hw
    obtain ⟨blobs, hlist⟩ : ∃ blobs, glacierListBlobs env s.glacier.db f' = some blobs :=
      ⟨_, glacierListBlobs_live env hsort hbound s.glacier.db⟩
    have hturn : s.turn env i n = s.setConnection i ((s.connection i).goto
        (.sendList (some k) blobs)) := by
      simp only [Server.turn, hworker, hlist]
    rw [hturn]
    exact .listed blobs hworker hlist (Server.setConnection_self _ _ _) ho
  | sendList slot blobs =>
    rw [hworker] at hw
    obtain rfl : slot = some k := hw
    cases blobs with
    | nil =>
      have hturn : s.turn env i n = s.setConnection i ((s.connection i).goto (.takeBlob k)) := by
        simp only [Server.turn, hworker]
      rw [hturn]
      exact .drained hworker (Server.setConnection_self _ _ _) ho
    | cons blob blobs =>
      have hturn : s.turn env i n = s.setConnection i ((s.connection i).answer
          (.modified blob) (.sendList (some k) blobs)) := by
        simp only [Server.turn, hworker]
      rw [hturn]
      exact .reported blob blobs hworker (Server.setConnection_self _ _ _) ho
  | takeBlob k' =>
    rw [hworker] at hw
    obtain rfl : k' = k := hw
    by_cases hstatus : o.messages.status = .ok
    · cases hempty : o.messages.isEmpty with
      | true =>
        have hturn : s.turn env i n = s.setConnection i ((s.connection i).goto (.waitFill k')) := by
          simp [Server.turn, hworker, hrun, ho, hstatus, hempty]
        rw [hturn]
        exact .waits hworker hstatus hempty (Server.setConnection_self _ _ _) ho
      | false =>
        have hturn : s.turn env i n = s.sendTaken i k' o := by
          simp [Server.turn, hworker, hrun, ho, hstatus, hempty]
        rw [hturn]
        exact .took (.inl ⟨hworker, hstatus⟩) hempty (Server.setConnection_self _ _ _)
          (getElem?_set_of_some ho)
    · have hturn : s.turn env i n = s.endWatch i (some k') .error := by
        simp [Server.turn, hworker, hrun, ho, hstatus]
      rw [hturn]
      exact .failed hworker hstatus (Server.setConnection_self _ _ _)
  | waitFill k' =>
    rw [hworker] at hw
    obtain rfl : k' = k := hw
    cases hempty : o.messages.isEmpty with
    | true =>
      have hturn : s.turn env i n = s.setConnection i ((s.connection i).goto (.takeBlob k')) := by
        simp [Server.turn, hworker, ho, hempty]
      rw [hturn]
      exact .woken hworker hempty (Server.setConnection_self _ _ _) ho
    | false =>
      have hturn : s.turn env i n = s.sendTaken i k' o := by
        simp [Server.turn, hworker, ho, hempty]
      rw [hturn]
      exact .took (.inr hworker) hempty (Server.setConnection_self _ _ _)
        (getElem?_set_of_some ho)
  | _ =>
    rw [hworker] at hw
    exact hw.elim

/-- What one step of the server does to a live watch whose peer stays. -/
theorem watch_cases (h : SlotsOwned s) (hup : s.halted = false) (hrun : s.running = true)
    (hsort : f.sortOrder = sortOrderLastModified) (hbound : f.lastModifiedAfter ≤ llongMax)
    (hw : Watching f k (s.connection i).worker) (ho : s.watchers[k]? = some (some o))
    {e : ServerEvent} (he : e ≠ .hangUp i) : WatchStep env i k f o s (s.step env e) e := by
  by_cases hof : e.Of i
  · cases e with
    | receive j data =>
      obtain rfl : j = i := hof
      have hsame : (s.connection j).receive env.hash s.running data = s.connection j := by
        unfold Connection.receive
        split
        · next r remaining buf hworker =>
          rw [hworker] at hw
          exact hw.elim
        · rfl
      have hkept : s.step env (.receive j data) = s.setConnection j (s.connection j) := by
        rw [Server.step, hup, hsame]
        rfl
      rw [hkept]
      exact .quiet o (fun _ => ServerEvent.noConfusion) (Server.setConnection_self _ _ _) ho
        (.inl rfl)
    | hangUp j =>
      obtain rfl : j = i := hof
      exact absurd rfl he
    | turn j n =>
      obtain rfl : j = i := hof
      have hturn : s.step env (.turn j n) = s.turn env j n := by
        rw [Server.step, hup]
        rfl
      rw [hturn]
      exact watch_turn hrun hsort hbound hw ho n _
    | _ => exact hof.elim
  · have hwait : (s.connection i).worker ≠ .waitForTask := by
      intro hworker
      rw [hworker] at hw
      exact hw.elim
    have hconnection := connection_frame env hwait hof
    rcases watch_frame env h (slot_of_watching hw) ho hof with hwatchers | ⟨blob, rfl, hp, hwatchers⟩
    · refine .quiet o (fun n => ?_) hconnection hwatchers (.inl rfl)
      rintro rfl
      exact hof rfl
    · exact .quiet _ (fun _ => ServerEvent.noConfusion) hconnection hwatchers
        (.inr ⟨blob, rfl, hp, rfl⟩)

end Live

end WatchLemmas

end Everarch
