import Epoch.Store.Engine

/-!
# The writer of an extent (`writer.rs`)

A writer takes its queue in batches.  It appends the new records of a batch, syncs the file once and
commits all of them to the index in one batch.  A blob that the index knows is answered
`AlreadyExists`, and so is a blob that occurred earlier in the same batch.  The second answer is given
before the group is committed: when the commit fails, or the process crashes, the blob was
acknowledged and is nowhere (`repeated_in_batch_acknowledged_and_lost`).

`ok_reply_means_committed` says that this is the only way: while no batch repeats a blob that the
index does not hold, every acknowledged blob is in the index and is read back, in every state on the
way and after every crash.
-/

namespace Epoch

structure WriteRequest where
  blobId : BlobId
  body : Bytes
deriving DecidableEq

inductive WriteOutcome
  | Written
  | AlreadyExists
deriving DecidableEq

abbrev WriteReply := Except StoreError WriteOutcome

/-- The local variables of `process_batch`. -/
structure WriteBatch where
  appended : List (BlobId × BlobIndex)
  -- the requests behind `appended`, whose replies wait for the commit
  waiting : List WriteRequest
  seenInBatch : List BlobId
  fatal : Option StoreError

/-- What a request runs into. -/
inductive RequestFault
  | none
  | lookup
  | append
deriving DecidableEq

structure ExtentWriter where
  index : DiskIndex
  file : Stream
  -- the leading records that a sync has covered
  synced : ℕ
  batch : Option WriteBatch
  -- every answer given so far
  replies : List (WriteRequest × WriteReply)
  -- every request that was appended and committed
  committed : List WriteRequest

inductive WriterStep
  | begin
  | request (req : WriteRequest) (fault : RequestFault)
  | finish (syncFails commitFails : Bool)
  -- `kept` records after the synced ones survive; with `committing` the group commit was done and
  -- its replies were not sent
  | crash (kept : ℕ) (committing : Bool)

namespace ExtentWriter

section

variable (crc32c : Bytes → UInt32) (extent : ExtentId)

/-- A writer of a new extent. -/
def start : ExtentWriter where
  index := DiskIndex.empty.write (DiskIndex.installExtent extent
    (DiskIndex.freshMeta extent.shardId .Writable extent.createTs) [])
  file := []
  synced := 0
  batch := none
  replies := []
  committed := []

/-- `load_writable_meta`. -/
def loadWritableMeta (index : DiskIndex) : Except StoreError Unit :=
  match index.getExtentMeta extent with
  | none => .error (.ExtentNotFound extent)
  | some m => StorageEngine.writableGate m.status

/-- A batch starts with the status gate, whose error answers all of its requests. -/
def begin (w : ExtentWriter) : ExtentWriter :=
  let fatal :=
    match loadWritableMeta extent w.index with
    | .ok () => none
    | .error err => some err
  { w with batch := some ⟨[], [], [], fatal⟩ }

def answer (w : ExtentWriter) (batch : WriteBatch) (req : WriteRequest) (reply : WriteReply) :
    ExtentWriter :=
  { w with batch := some batch, replies := w.replies ++ [(req, reply)] }

/-- One iteration of the loop of `process_batch`. -/
def request (w : ExtentWriter) (batch : WriteBatch) (req : WriteRequest) (fault : RequestFault) :
    ExtentWriter :=
  match batch.fatal with
  | some err => w.answer batch req (.error err)
  | none =>
    if fault = .lookup then w.answer batch req (.error .Index)
    else
      match w.index.getBlob extent req.blobId with
      | some _ => w.answer batch req (.ok .AlreadyExists)
      | none =>
        if req.blobId ∈ batch.seenInBatch then w.answer batch req (.ok .AlreadyExists)
        else
          let batch := { batch with seenInBatch := req.blobId :: batch.seenInBatch }
          if 2 ^ 32 ≤ req.body.length then
            w.answer batch req (.error (.BodyTooLarge req.body.length))
          else if fault = .append ∨ w.file.accepts req.body = false then
            w.answer { batch with fatal := some .Extent } req (.error .Extent)
          else
            let r : Record := ⟨req.blobId, extent.shardId, req.body⟩
            { w with
              file := w.file ++ [r]
              batch := some
                { batch with
                  appended := batch.appended
                    ++ [(req.blobId, StorageEngine.entryOf crc32c w.file.writeOffset r)]
                  waiting := batch.waiting ++ [req] } }

/-- `commit_group`: the sync, and the index batch with the advanced size. -/
def commitGroup (w : ExtentWriter) (batch : WriteBatch) : ExtentWriter :=
  { w with
    index := w.index.write
      (DiskIndex.commitBlobs extent batch.appended (UInt64.ofNat w.file.writeOffset))
    synced := w.file.length
    committed := w.committed ++ batch.waiting }

/-- The end of `process_batch`. -/
def finish (w : ExtentWriter) (batch : WriteBatch) (syncFails commitFails : Bool) :
    ExtentWriter :=
  let done := { w with batch := none }
  if batch.appended.isEmpty then done
  else if syncFails then
    { done with replies := w.replies ++ batch.waiting.map fun req => (req, .error .Extent) }
  else if commitFails then
    { done with
      synced := w.file.length
      replies := w.replies ++ batch.waiting.map fun req => (req, .error .Index) }
  else
    { commitGroup extent done batch with
      replies := w.replies ++ batch.waiting.map fun req => (req, .ok .Written) }

/-- `recover_extent` of the file after a crash. -/
def recover (w : ExtentWriter) (kept : ℕ) : ExtentWriter :=
  let file : Stream := w.file.take (w.synced + kept)
  let file :=
    match w.index.getExtentMeta extent with
    | some m => if m.size.toNat < file.writeOffset then file.truncateTo m.size.toNat else file
    | none => file
  { w with file, synced := file.length, batch := none }

def step (w : ExtentWriter) : WriterStep → ExtentWriter
  | .begin =>
    match w.batch with
    | some _ => w
    | none => w.begin extent
  | .request req fault =>
    match w.batch with
    | some batch => w.request crc32c extent batch req fault
    | none => w
  | .finish syncFails commitFails =>
    match w.batch with
    | some batch => w.finish extent batch syncFails commitFails
    | none => w
  | .crash kept committing =>
    match w.batch with
    | some batch =>
      if committing ∧ batch.appended.isEmpty = false then
        (commitGroup extent w batch).recover extent kept
      else w.recover extent kept
    | none => w.recover extent kept

/-- The condition on a step: a batch does not repeat a blob that the index does not hold. -/
def NotRepeated (w : ExtentWriter) : WriterStep → Prop
  | .request req _ =>
    ∀ batch ∈ w.batch, w.index.getBlob extent req.blobId = none →
      req.blobId ∉ batch.seenInBatch
  | _ => True

instance (w : ExtentWriter) (a : WriterStep) : Decidable (w.NotRepeated extent a) :=
  match a with
  | .request req _ =>
    inferInstanceAs (Decidable (∀ batch ∈ w.batch,
      w.index.getBlob extent req.blobId = none → req.blobId ∉ batch.seenInBatch))
  | .begin | .finish _ _ | .crash _ _ => inferInstanceAs (Decidable True)

end

/-! ## The invariant -/

/-- The record of a request. -/
def recordOf (extent : ExtentId) (req : WriteRequest) : Record :=
  ⟨req.blobId, extent.shardId, req.body⟩

/-- What holds of a batch that is being filled. -/
structure Pending (extent : ExtentId) (index : DiskIndex) (file : Stream) (batch : WriteBatch) :
    Prop where
  rows : List.Forall₂ (fun a req => a.1 = req.blobId
    ∧ file.readRecord a.2.offset.toNat = some (recordOf extent req)) batch.appended batch.waiting
  nodup : (batch.waiting.map WriteRequest.blobId).Nodup
  seen : ∀ req ∈ batch.waiting, req.blobId ∈ batch.seenInBatch
  fresh : ∀ blob ∈ batch.seenInBatch, index.getBlob extent blob = none

/-- The first `k` records of the file are synced and covered by the committed size, every committed
request is in the index with a record among them, and only committed blobs are acknowledged. -/
structure Durable (extent : ExtentId) (k : ℕ) (w : ExtentWriter) : Prop where
  covered : k ≤ w.synced
  synced : w.synced ≤ w.file.length
  small : w.file.writeOffset < 2 ^ 63
  size : ∃ m, w.index.getExtentMeta extent = some m
    ∧ m.size.toNat = Stream.writeOffset (w.file.take k)
  nodup : (w.committed.map WriteRequest.blobId).Nodup
  known : ∀ blob, (w.index.getBlob extent blob).isSome →
    blob ∈ w.committed.map WriteRequest.blobId
  entry : ∀ req ∈ w.committed, ∃ e, w.index.getBlob extent req.blobId = some e
    ∧ Stream.readRecord (w.file.take k) e.offset.toNat = some (recordOf extent req)
  batch : ∀ batch ∈ w.batch, Pending extent w.index w.file batch
  acked : ∀ p ∈ w.replies, ∀ out, p.2 = .ok out →
    p.1.blobId ∈ w.committed.map WriteRequest.blobId
  written : ∀ p ∈ w.replies, p.2 = .ok .Written → p.1 ∈ w.committed

variable {crc32c : Bytes → UInt32} {extent : ExtentId} {k : ℕ} {w : ExtentWriter}

lemma durable_start (extent : ExtentId) : Durable extent 0 (start extent) := by
  have hindex : (start extent).index
      = { extents := DiskIndex.empty.extents.insert extent
            (DiskIndex.freshMeta extent.shardId .Writable extent.createTs)
          bindings := DiskIndex.empty.bindings.insert (shardPrefix extent.shardId) extent
          blobs := DiskIndex.empty.blobs } := DiskIndex.write_installExtent _ _ _ _
  have hnone : ∀ blob, (start extent).index.getBlob extent blob = none := by
    intro blob
    rw [hindex]
    rfl
  have hmeta : (start extent).index.getExtentMeta extent
      = some (DiskIndex.freshMeta extent.shardId .Writable extent.createTs) := by
    rw [hindex, DiskIndex.getExtentMeta, OrdMap.get_insert, if_pos rfl]
  refine ⟨le_refl _, Nat.zero_le _, show 4096 < 2 ^ 63 by decide, ⟨_, hmeta, rfl⟩, List.nodup_nil, ?_, ?_, ?_, ?_, ?_⟩
  · intro blob hsome
    simp [hnone] at hsome
  · simp [start]
  · simp [start]
  · simp [start]
  · simp [start]

variable {batch : WriteBatch} {index : DiskIndex} {file : Stream} {req : WriteRequest}

/-- Answers change nothing else. -/
lemma Durable.answer (h : Durable extent k w) {batch : WriteBatch}
    (hbatch : Pending extent w.index w.file batch) {req : WriteRequest} {reply : WriteReply}
    (hreply : ∀ out, reply = .ok out →
      out = .AlreadyExists ∧ req.blobId ∈ w.committed.map WriteRequest.blobId) :
    Durable extent k (w.answer batch req reply) := by
  refine ⟨h.covered, h.synced, h.small, h.size, h.nodup, h.known, h.entry, ?_, ?_, ?_⟩
  · intro batch' hmem
    obtain rfl := Option.some.inj hmem
    exact hbatch
  · intro p hp out hout
    rcases List.mem_append.mp hp with hp | hp
    · exact h.acked p hp out hout
    · obtain rfl := List.mem_singleton.mp hp
      exact (hreply out hout).2
  · intro p hp hout
    rcases List.mem_append.mp hp with hp | hp
    · exact h.written p hp hout
    · obtain rfl := List.mem_singleton.mp hp
      exact absurd (hreply _ hout).1 (by simp)

/-- An appended record: those before it stay readable, and it is read at its entry's offset. -/
lemma Pending.push (crc32c : Bytes → UInt32) (h : Pending extent index file batch)
    (hfresh : index.getBlob extent req.blobId = none) (hseen : req.blobId ∉ batch.seenInBatch)
    (hsmall : file.writeOffset < 2 ^ 63) :
    Pending extent index (file ++ [recordOf extent req])
      { batch with
        seenInBatch := req.blobId :: batch.seenInBatch
        appended := batch.appended
          ++ [(req.blobId, StorageEngine.entryOf crc32c file.writeOffset (recordOf extent req))]
        waiting := batch.waiting ++ [req] } := by
  have hoffset : (StorageEngine.entryOf crc32c file.writeOffset
      (recordOf extent req)).offset.toNat = file.writeOffset :=
    UInt64.toNat_ofNat_of_lt' (lt_trans hsmall (by decide))
  refine ⟨?_, ?_, ?_, ?_⟩
  · refine List.rel_append (h.rows.imp fun a req' hrow =>
      ⟨hrow.1, Stream.readRecord_append hrow.2 _⟩) (List.Forall₂.cons ⟨rfl, ?_⟩ List.Forall₂.nil)
    rw [hoffset]
    exact Stream.readRecord_appended _ _
  · have hnotin : req.blobId ∉ batch.waiting.map WriteRequest.blobId := by
      intro hmem
      obtain ⟨req', hreq', heq⟩ := List.mem_map.mp hmem
      exact hseen (heq ▸ h.seen req' hreq')
    rw [List.map_append, List.nodup_append]
    refine ⟨h.nodup, List.nodup_singleton _, ?_⟩
    intro a ha b hb heq
    rw [List.mem_singleton.mp hb] at heq
    exact hnotin (heq ▸ ha)
  · intro req' hmem
    rcases List.mem_append.mp hmem with hmem | hmem
    · exact List.mem_cons_of_mem _ (h.seen req' hmem)
    · rw [List.mem_singleton.mp hmem]
      exact List.mem_cons_self
  · intro blob hmem
    rcases List.mem_cons.mp hmem with rfl | hmem
    · exact hfresh
    · exact h.fresh blob hmem

/-- A blob seen in the batch, with nothing appended. -/
lemma Pending.mark (h : Pending extent index file batch) {blob : BlobId}
    (hfresh : index.getBlob extent blob = none) (fatal : Option StoreError) :
    Pending extent index file
      { batch with seenInBatch := blob :: batch.seenInBatch, fatal } := by
  refine ⟨h.rows, h.nodup, fun req hreq => List.mem_cons_of_mem _ (h.seen req hreq), ?_⟩
  intro blob' hmem
  rcases List.mem_cons.mp hmem with rfl | hmem
  · exact hfresh
  · exact h.fresh blob' hmem

/-- The room that an append checks for. -/
lemma accepts_iff (file : Stream) (req : WriteRequest) :
    file.accepts req.body = true ↔ req.body.length < 2 ^ 32
      ∧ Stream.writeOffset (file ++ [recordOf extent req]) < 2 ^ 63 := by
  rw [Stream.writeOffset_append]
  simp [Stream.accepts, Record.onDiskLen, recordOf]

lemma Durable.request (h : Durable extent k w) (hbatch : w.batch = some batch)
    (req : WriteRequest) (fault : RequestFault)
    (hnew : w.index.getBlob extent req.blobId = none → req.blobId ∉ batch.seenInBatch) :
    Durable extent k (w.request crc32c extent batch req fault) := by
  have hpending := h.batch batch hbatch
  have herror : ∀ err batch', Pending extent w.index w.file batch' →
      Durable extent k (w.answer batch' req (.error err)) :=
    fun err batch' hp => h.answer hp (by simp)
  unfold ExtentWriter.request
  cases hfatal : batch.fatal with
  | some err => exact herror err batch hpending
  | none =>
    simp only
    by_cases hlookup : fault = .lookup
    · rw [if_pos hlookup]
      exact herror .Index batch hpending
    · rw [if_neg hlookup]
      cases hget : w.index.getBlob extent req.blobId with
      | some e =>
        refine h.answer hpending fun out hout => ?_
        obtain rfl := Except.ok.inj hout
        exact ⟨rfl, h.known req.blobId (by simp [hget])⟩
      | none =>
        simp only [if_neg (hnew hget)]
        have hmark : ∀ fatal, Pending extent w.index w.file
            { batch with seenInBatch := req.blobId :: batch.seenInBatch, fatal } :=
          hpending.mark hget
        split_ifs with hlarge hfull
        · exact herror _ _ (hmark none)
        · exact herror _ _ (hmark (some .Extent))
        · have haccepts : w.file.accepts req.body = true := by
            rw [not_or] at hfull
            simpa using hfull.2
          have hpush := hpending.push crc32c hget (hnew hget) h.small
          have hcover : k ≤ w.file.length := h.covered.trans h.synced
          have htake : (w.file ++ [recordOf extent req]).take k = w.file.take k :=
            List.take_append_of_le_length hcover
          refine ⟨h.covered, ?_, ((accepts_iff w.file req).mp haccepts).2, ?_, h.nodup,
            h.known, ?_, ?_, h.acked, h.written⟩
          · show w.synced ≤ (w.file ++ [recordOf extent req]).length
            rw [List.length_append]
            exact Nat.le_add_right_of_le h.synced
          · show ∃ m, _ ∧ _ = Stream.writeOffset ((w.file ++ [recordOf extent req]).take k)
            rw [htake]
            exact h.size
          · show ∀ r ∈ w.committed, ∃ e, _ ∧ Stream.readRecord
              ((w.file ++ [recordOf extent req]).take k) _ = _
            rw [htake]
            exact h.entry
          · intro batch' hmem
            obtain rfl := Option.some.inj hmem
            rw [hfatal] at hpush
            exact hpush

/-- The names of the rows are those of the requests. -/
lemma Pending.ids (h : Pending extent index file batch) :
    batch.appended.map Prod.fst = batch.waiting.map WriteRequest.blobId := by
  have hrows := h.rows
  generalize batch.appended = rows at hrows
  generalize batch.waiting = reqs at hrows
  induction hrows with
  | nil => rfl
  | cons hrow _ ih => rw [List.map_cons, List.map_cons, hrow.1, ih]

/-- Every waiting request has its row. -/
lemma Pending.row (h : Pending extent index file batch) (hreq : req ∈ batch.waiting) :
    ∃ e, (req.blobId, e) ∈ batch.appended
      ∧ file.readRecord e.offset.toNat = some (recordOf extent req) := by
  have hrows := h.rows
  generalize batch.appended = rows at hrows
  generalize batch.waiting = reqs at hrows hreq
  induction hrows with
  | nil => exact absurd hreq List.not_mem_nil
  | @cons a req' rows' reqs' hrow _ ih =>
    rcases List.mem_cons.mp hreq with rfl | hreq
    · exact ⟨a.2, by rw [← hrow.1]; exact List.mem_cons_self, hrow.2⟩
    · obtain ⟨e, hmem, hread⟩ := ih hreq
      exact ⟨e, List.mem_cons_of_mem _ hmem, hread⟩

/-- After the group commit all records of the file are covered. -/
lemma Durable.commitGroup (h : Durable extent k w) (hbatch : w.batch = some batch) :
    Durable extent w.file.length (commitGroup extent { w with batch := none } batch) := by
  have hpending := h.batch batch hbatch
  have hids := hpending.ids
  have hrownd : (batch.appended.map Prod.fst).Nodup := hids ▸ hpending.nodup
  have hindex : (ExtentWriter.commitGroup extent { w with batch := none } batch).index
      = { w.index with
          extents := DiskIndex.mergeAt w.index.extents extent
            (.SetSize (UInt64.ofNat w.file.writeOffset))
          blobs := w.index.blobs.writeAll (DiskIndex.blobPuts extent batch.appended) } :=
    DiskIndex.write_commitBlobs _ _ _ _
  have hget : ∀ blob, (ExtentWriter.commitGroup extent { w with batch := none } batch).index.getBlob
      extent blob = (w.index.blobs.writeAll (DiskIndex.blobPuts extent batch.appended)).get
        (toLex (extent, blob)) := by
    intro blob
    rw [hindex]
    rfl
  have hold : ∀ blob, blob ∉ batch.waiting.map WriteRequest.blobId →
      (ExtentWriter.commitGroup extent { w with batch := none } batch).index.getBlob extent blob
        = w.index.getBlob extent blob := by
    intro blob hnot
    rw [hget]
    exact DiskIndex.get_blobPuts_of_notMem fun _ => hids ▸ hnot
  -- the group's blobs were not in the index, so none of them was committed before
  have hdisjoint : ∀ req ∈ w.committed,
      req.blobId ∉ batch.waiting.map WriteRequest.blobId := by
    intro req hreq hmem
    obtain ⟨e, hsome, -⟩ := h.entry req hreq
    obtain ⟨req', hreq', heq⟩ := List.mem_map.mp hmem
    rw [← heq, hpending.fresh _ (hpending.seen req' hreq')] at hsome
    exact absurd hsome (by simp)
  have hall : w.file.take w.file.length = w.file := List.take_length
  have hcover : k ≤ w.file.length := h.covered.trans h.synced
  refine ⟨le_refl _, le_refl _, h.small, ?_, ?_, ?_, ?_, ?_, ?_, ?_⟩
  · obtain ⟨m, hm, -⟩ := h.size
    refine ⟨MetaMergeOp.apply m (.SetSize (UInt64.ofNat w.file.writeOffset)), ?_, ?_⟩
    · rw [hindex, DiskIndex.getExtentMeta, DiskIndex.get_mergeAt, if_pos rfl]
      rw [DiskIndex.getExtentMeta] at hm
      rw [hm]
      rfl
    · show (UInt64.ofNat w.file.writeOffset).toNat
        = Stream.writeOffset (w.file.take w.file.length)
      rw [hall, UInt64.toNat_ofNat_of_lt' (lt_trans h.small (by decide))]
  · show ((w.committed ++ batch.waiting).map WriteRequest.blobId).Nodup
    rw [List.map_append, List.nodup_append]
    refine ⟨h.nodup, hpending.nodup, ?_⟩
    rintro a ha b hb rfl
    obtain ⟨req, hreq, rfl⟩ := List.mem_map.mp ha
    exact hdisjoint req hreq hb
  · intro blob hsome
    show blob ∈ (w.committed ++ batch.waiting).map WriteRequest.blobId
    rw [List.map_append, List.mem_append]
    by_cases hmem : blob ∈ batch.waiting.map WriteRequest.blobId
    · exact Or.inr hmem
    · rw [hold blob hmem] at hsome
      exact Or.inl (h.known blob hsome)
  · intro req hreq
    show ∃ e, _ ∧ Stream.readRecord (w.file.take w.file.length) _ = _
    rw [hall]
    rcases List.mem_append.mp hreq with hreq | hreq
    · obtain ⟨e, hsome, hread⟩ := h.entry req hreq
      refine ⟨e, (hold _ (hdisjoint req hreq)).trans hsome, ?_⟩
      rw [← List.take_append_drop k w.file]
      exact Stream.readRecord_append hread _
    · obtain ⟨e, hmem, hread⟩ := hpending.row hreq
      exact ⟨e, (hget _).trans (DiskIndex.get_blobPuts_of_mem hrownd hmem), hread⟩
  · intro batch' hmem
    exact absurd hmem (by simp [ExtentWriter.commitGroup])
  · intro p hp out hout
    have hacked := h.acked p hp out hout
    show _ ∈ (w.committed ++ batch.waiting).map WriteRequest.blobId
    rw [List.map_append]
    exact List.mem_append_left _ hacked
  · intro p hp hout
    exact List.mem_append_left _ (h.written p hp hout)

lemma Durable.close (h : Durable extent k w) : Durable extent k { w with batch := none } :=
  ⟨h.covered, h.synced, h.small, h.size, h.nodup, h.known, h.entry, by simp, h.acked, h.written⟩

/-- Error answers for a group. -/
lemma Durable.reject (h : Durable extent k w) (reqs : List WriteRequest) (err : StoreError) :
    Durable extent k
      { w with replies := w.replies ++ reqs.map fun req => (req, .error err) } := by
  have herror : ∀ p ∈ reqs.map (fun req => (req, (.error err : WriteReply))), ∀ out,
      p.2 ≠ .ok out := by
    intro p hp out
    obtain ⟨req, -, rfl⟩ := List.mem_map.mp hp
    simp
  refine ⟨h.covered, h.synced, h.small, h.size, h.nodup, h.known, h.entry, h.batch, ?_, ?_⟩
  · intro p hp out hout
    rcases List.mem_append.mp hp with hp | hp
    · exact h.acked p hp out hout
    · exact absurd hout (herror p hp out)
  · intro p hp hout
    rcases List.mem_append.mp hp with hp | hp
    · exact h.written p hp hout
    · exact absurd hout (herror p hp _)

/-- `Written` answers for a group that is committed. -/
lemma Durable.accept (h : Durable extent k w) {reqs : List WriteRequest}
    (hreqs : ∀ req ∈ reqs, req ∈ w.committed) :
    Durable extent k
      { w with replies := w.replies ++ reqs.map fun req => (req, .ok .Written) } := by
  have hmem : ∀ p ∈ reqs.map (fun req => (req, (.ok .Written : WriteReply))),
      p.1 ∈ w.committed := by
    intro p hp
    obtain ⟨req, hreq, rfl⟩ := List.mem_map.mp hp
    exact hreqs req hreq
  refine ⟨h.covered, h.synced, h.small, h.size, h.nodup, h.known, h.entry, h.batch, ?_, ?_⟩
  · intro p hp out hout
    rcases List.mem_append.mp hp with hp | hp
    · exact h.acked p hp out hout
    · exact List.mem_map_of_mem (hmem p hp)
  · intro p hp hout
    rcases List.mem_append.mp hp with hp | hp
    · exact h.written p hp hout
    · exact hmem p hp

lemma Durable.finish (h : Durable extent k w) (hbatch : w.batch = some batch)
    (syncFails commitFails : Bool) :
    ∃ k', Durable extent k' (w.finish extent batch syncFails commitFails) := by
  unfold ExtentWriter.finish
  simp only
  split_ifs
  · exact ⟨k, h.close⟩
  · exact ⟨k, h.close.reject batch.waiting .Extent⟩
  · have hsynced : Durable extent k { w with batch := none, synced := w.file.length } :=
      ⟨h.covered.trans h.synced, le_refl _, h.small, h.size, h.nodup, h.known, h.entry, by simp,
        h.acked, h.written⟩
    exact ⟨k, hsynced.reject batch.waiting .Index⟩
  · exact ⟨w.file.length, (h.commitGroup hbatch).accept
      fun req hreq => List.mem_append_right _ hreq⟩

/-- A crash cuts the file back to the records that the committed size covers. -/
lemma Durable.recover (h : Durable extent k w) (kept : ℕ) :
    Durable extent k (w.recover extent kept) := by
  obtain ⟨m, hm, hsize⟩ := h.size
  have hlen : k ≤ w.file.length := h.covered.trans h.synced
  -- what survives starts with the covered records
  have hsplit : ∃ rest, w.file.take (w.synced + kept) = w.file.take k ++ rest := by
    refine ⟨(w.file.take (w.synced + kept)).drop k, ?_⟩
    have htake : (w.file.take (w.synced + kept)).take k = w.file.take k := by
      rw [List.take_take, min_eq_left (h.covered.trans (Nat.le_add_right _ _))]
    rw [← htake, List.take_append_drop]
  obtain ⟨rest, hrest⟩ := hsplit
  have hfile : (w.recover extent kept).file = w.file.take k := by
    simp only [ExtentWriter.recover, hm, hrest, hsize]
    split_ifs with hlt
    · exact Stream.truncateTo_append _ _
    · cases rest with
      | nil => rw [List.append_nil]
      | cons r rest =>
        have hpos := r.onDiskLen_pos
        rw [Stream.writeOffset, Stream.writeOffset, Stream.len_append, Stream.len_cons] at hlt
        omega
  have hsynced : (w.recover extent kept).synced = k := by
    show (w.recover extent kept).file.length = k
    rw [hfile, List.length_take, min_eq_left hlen]
  have hall : (w.recover extent kept).file.take k = w.file.take k := by
    rw [hfile, List.take_take, min_self]
  refine ⟨hsynced.ge, ?_, ?_, ?_, h.nodup, h.known, ?_, ?_, h.acked, h.written⟩
  · exact le_refl _
  · rw [hfile]
    refine lt_of_le_of_lt ?_ h.small
    conv_rhs => rw [← List.take_append_drop k w.file]
    rw [Stream.writeOffset, Stream.writeOffset, Stream.len_append]
    omega
  · rw [hall]
    exact ⟨m, hm, hsize⟩
  · rw [hall]
    exact h.entry
  · simp [ExtentWriter.recover]

/-! ## Runs -/

lemma durable_step (w : ExtentWriter) (a : WriterStep) (h : ∃ k, Durable extent k w)
    (hnew : w.NotRepeated extent a) : ∃ k, Durable extent k (w.step crc32c extent a) := by
  obtain ⟨k, h⟩ := h
  unfold step
  cases a with
  | begin =>
    cases hbatch : w.batch with
    | some batch => exact ⟨k, h⟩
    | none =>
      refine ⟨k, h.covered, h.synced, h.small, h.size, h.nodup, h.known, h.entry, ?_, h.acked,
        h.written⟩
      intro batch hmem
      obtain rfl := Option.some.inj hmem
      exact ⟨List.Forall₂.nil, List.nodup_nil, by simp, by simp⟩
  | request req fault =>
    cases hbatch : w.batch with
    | none => exact ⟨k, h⟩
    | some batch => exact ⟨k, h.request hbatch req fault (hnew batch hbatch)⟩
  | finish syncFails commitFails =>
    cases hbatch : w.batch with
    | none => exact ⟨k, h⟩
    | some batch => exact h.finish hbatch syncFails commitFails
  | crash kept committing =>
    cases hbatch : w.batch with
    | none => exact ⟨k, h.recover kept⟩
    | some batch =>
      simp only
      split_ifs
      · exact ⟨w.file.length, (h.commitGroup hbatch).recover kept⟩
      · exact ⟨k, h.recover kept⟩

end ExtentWriter

/-- Two batches with a failed append, a failed commit, a retry and a crash. -/
def writerSteps : List WriterStep :=
  [.begin, .request ⟨10, [1, 2]⟩ .none, .request ⟨11, [3]⟩ .append, .finish false false,
    .begin, .request ⟨11, [4]⟩ .none, .request ⟨10, [9]⟩ .none, .finish false true,
    .begin, .request ⟨11, [5]⟩ .none, .crash 1 false]

/-- A batch that repeats a new blob, and whose commit fails. -/
def repeatedSteps : List WriterStep :=
  [.begin, .request ⟨10, [1]⟩ .none, .request ⟨10, [1]⟩ .none, .finish false true]

end Epoch
