import Epoch.Meta.Segments

/-!
# The hierarchical namespace (`ns_hier/mod.rs`)

A file's record is its directory entry, keyed by `(parent_ino, name)`; a directory's own record,
the sentinel, sits at the empty name of its children's range.  As in the flat namespace the
handlers only build batches, and a handler that overwrites a file captures it first
(`captureOldFile`), walking every segment key that carries the file's routing key.

Renaming repacks what the source's *head record* holds and deletes the source's segments with a
second walk that captures nothing (`deleteSegments`).
-/

namespace Epoch

/-! ## Inodes (`epoch_proto::consts`) -/

def ROOT_INO : UInt64 := 1

def INO_PARTITION_TAG_BITS : ℕ := 16

def INO_COUNTER_BITS : ℕ := 64 - INO_PARTITION_TAG_BITS

/-- `tag << 48 | counter`; `none` if either exceeds its width. -/
def composeIno (partitionTag : UInt32) (counter : UInt64) : Option UInt64 :=
  if 2 ^ INO_PARTITION_TAG_BITS ≤ partitionTag.toNat ∨ 2 ^ INO_COUNTER_BITS ≤ counter.toNat then none
  else some ((partitionTag.toUInt64 <<< UInt64.ofNat INO_COUNTER_BITS) ||| counter)

/-- The partition's inode allocator, threaded through an apply. -/
structure InoAllocator where
  tag : UInt32
  next : UInt64
deriving DecidableEq, Repr

def InoAllocator.mint (a : InoAllocator) : Except MetaStoreError (UInt64 × InoAllocator) :=
  match composeIno a.tag a.next with
  | none => .error (.ValueCodec (some "ino counter overflow"))
  | some ino => .ok (ino, { a with next := a.next + 1 })

inductive HierOp
  | Write (bucket : BucketId) (parentIno : UInt64) (name : Bytes) (size : UInt64)
      (etag : BitVec 128) (content : ContentHead) (http : HttpMeta) (tsMillis : Int64)
  | Unlink (bucket : BucketId) (parentIno : UInt64) (name : Bytes) (tsMillis : Int64)
  | MkdirSentinel (bucket : BucketId) (parentIno : UInt64) (name : Bytes) (tsMillis : Int64)
  | MkdirLink (bucket : BucketId) (parentIno : UInt64) (name : Bytes) (childIno : UInt64)
      (tsMillis : Int64)
  | RmdirUnlink (bucket : BucketId) (parentIno : UInt64) (name : Bytes) (tsMillis : Int64)
  | RmdirSentinel (bucket : BucketId) (ino : UInt64) (tsMillis : Int64)
  | RenameSameDir (bucket : BucketId) (parentIno : UInt64) (source target : Bytes)
      (tsMillis : Int64)
deriving DecidableEq, Repr

namespace Hier

def SENTINEL_NAME : Bytes := []

def fsKey (bucket : BucketId) (parentIno : UInt64) (name : Bytes) : Bytes :=
  hierKey .Fs bucket parentIno name []

def segPrefix (bucket : BucketId) (parentIno : UInt64) (name : Bytes) : Bytes :=
  hierKey .MetaSeg bucket parentIno name []

def segKey (bucket : BucketId) (parentIno : UInt64) (name : Bytes) (segNo : UInt32) : Bytes :=
  hierKey .MetaSeg bucket parentIno name (segNoSuffix segNo)

def delqKey (bucket : BucketId) (parentIno : UInt64) (name : Bytes) (seq : UInt64)
    (segNo : UInt32) : Bytes :=
  hierKey .Delq bucket parentIno name (delqSeqSuffix seq segNo)

/-! ## Helpers -/

/-- The segments a walk finds under a name. -/
def oldSegments (store : MetaStore) (bucket : BucketId) (parentIno : UInt64) (name : Bytes) :
    List (Bytes × MetaValue) :=
  scanPrefix store .MetaSeg (segPrefix bucket parentIno name) 1024

/-- Capture an existing record: its batch share and `(inline_bytes, inline_count, size)`. -/
def captureOldFile (store : MetaStore) (bucket : BucketId) (parentIno : UInt64) (name : Bytes)
    (seq : UInt64) (ts : Int64) : List StoreOp × (UInt64 × UInt64 × UInt64) :=
  match store.get .Fs (fsKey bucket parentIno name) with
  | none => ([], (0, 0, 0))
  | some old =>
    let page := oldSegments store bucket parentIno name
    let captured := extract .Fs old ++ page.flatMap fun e => extract .MetaSeg e.2
    let account := match old.fs? with
      | some (.File file) =>
        (file.content.inlineAccount.1, file.content.inlineAccount.2, file.size)
      | _ => (0, 0, 0)
    ((page.map fun e => WriteOp.delete .MetaSeg e.1)
      ++ (enqueueDeleteSlices 0 captured ts (delqKey bucket parentIno name seq)).1, account)

def readRecord (store : MetaStore) (bucket : BucketId) (parentIno : UInt64) (name : Bytes) :
    Except MetaStoreError (Option FsRecord) :=
  match store.get .Fs (fsKey bucket parentIno name) with
  | none => .ok none
  | some v => (decode MetaValue.fs? v).map some

/-- The head/segment split of a file record. -/
def packFile (file : FileRecord) : FileRecord × List SliceSegment :=
  match file.content with
  | .Inline _ => ({ file with segCount := 0 }, [])
  | .Slices slices =>
    let (embedded, segments) := splitSlices slices
    ({ file with
        content := .Slices embedded
        segCount := UInt32.ofNat segments.length }, segments)

def rejected (reason : String) : ApplyOutcome := .noDelta [] (.Rejected reason)

/-- The puts of a packed file record and its segments. -/
def packedPuts (bucket : BucketId) (parentIno : UInt64) (name : Bytes) (file : FileRecord) :
    List StoreOp :=
  WriteOp.put .Fs (fsKey bucket parentIno name) (.Fs (.File (packFile file).1))
    :: segmentPuts (segKey bucket parentIno name) (packFile file).2

/-- The child-count and mtime bump of the parent's sentinel, if the parent has one here. -/
def bumpSentinelChildDelta (store : MetaStore) (bucket : BucketId) (parentIno : UInt64)
    (delta : Int64) (ts : Int64) : Except MetaStoreError (List StoreOp) :=
  match store.get .Fs (fsKey bucket parentIno SENTINEL_NAME) with
  | none => .ok []
  | some v =>
    match decode MetaValue.fs? v with
    | .error e => .error e
    | .ok (.Sentinel sentinel) =>
      let entryCount := match sentinel.entryCount with
        | .Exact count => DirCount.Exact (saturatingAddSigned count delta)
        | .Unknown => .Unknown
      .ok [WriteOp.put .Fs (fsKey bucket parentIno SENTINEL_NAME)
        (.Fs (.Sentinel { sentinel with mtime := ts, entryCount := entryCount }))]
    | .ok _ => .ok []

/-! ## Files -/

/-- `apply_write` once the inode is known. -/
def writeFile (store : MetaStore) (bucket : BucketId) (parentIno : UInt64) (name : Bytes)
    (file : FileRecord) (isCreate : Bool) (seq : UInt64) (ts : Int64) :
    Except MetaStoreError ApplyOutcome :=
  let old := captureOldFile store bucket parentIno name seq ts
  match bumpSentinelChildDelta store bucket parentIno (if isCreate then 1 else 0) ts with
  | .error e => .error e
  | .ok bump =>
    let new := (packFile file).1.content.inlineAccount
    .ok ⟨old.1 ++ packedPuts bucket parentIno name file ++ bump, .None,
      { inlineBytes := new.1.toInt64 - old.2.1.toInt64
        inlineCount := new.2.toInt64 - old.2.2.1.toInt64
        totalBytes := file.size.toInt64 - old.2.2.2.toInt64 }⟩

def applyWrite (store : MetaStore) (bucket : BucketId) (parentIno : UInt64) (name : Bytes)
    (size : UInt64) (etag : BitVec 128) (content : ContentHead) (http : HttpMeta) (ts : Int64)
    (seq : UInt64) (ino : InoAllocator) : Except MetaStoreError (ApplyOutcome × InoAllocator) :=
  let file := fun fileIno : UInt64 =>
    ({ ino := fileIno, size, etag, mtime := ts, content, segCount := 0, http } : FileRecord)
  if name = [] then .ok (rejected "empty file name", ino)
  else
    match readRecord store bucket parentIno name with
    | .error e => .error e
    | .ok (some (.Dir _)) => .ok (rejected "name is a directory", ino)
    | .ok (some (.Sentinel _)) => .ok (rejected "name is a directory", ino)
    | .ok (some (.File existing)) =>
      (writeFile store bucket parentIno name (file existing.ino) false seq ts).map (·, ino)
    | .ok none =>
      match ino.mint with
      | .error e => .error e
      | .ok (fileIno, ino') =>
        (writeFile store bucket parentIno name (file fileIno) true seq ts).map (·, ino')

def applyUnlink (store : MetaStore) (bucket : BucketId) (parentIno : UInt64) (name : Bytes)
    (seq : UInt64) (ts : Int64) : Except MetaStoreError ApplyOutcome :=
  match readRecord store bucket parentIno name with
  | .error e => .error e
  | .ok none => .ok (.noDelta [] .None)
  | .ok (some (.Dir _)) => .ok (rejected "name is a directory")
  | .ok (some (.Sentinel _)) => .ok (rejected "name is a directory")
  | .ok (some (.File _)) =>
    let old := captureOldFile store bucket parentIno name seq ts
    match bumpSentinelChildDelta store bucket parentIno (-1) ts with
    | .error e => .error e
    | .ok bump =>
      .ok ⟨old.1 ++ WriteOp.delete .Fs (fsKey bucket parentIno name) :: bump, .None,
        { inlineBytes := -old.2.1.toInt64
          inlineCount := -old.2.2.1.toInt64
          totalBytes := -old.2.2.2.toInt64 }⟩

/-- Delete every segment found under a name, capturing nothing. -/
def deleteSegments (store : MetaStore) (bucket : BucketId) (parentIno : UInt64) (name : Bytes) :
    List StoreOp :=
  (oldSegments store bucket parentIno name).map fun e => WriteOp.delete .MetaSeg e.1

/-- `apply_rename_same_dir` once both names have been looked up: capture the destination, write
the source's record under it, drop the source with its segments. -/
def renameFile (store : MetaStore) (bucket : BucketId) (parentIno : UInt64)
    (source target : Bytes) (file : FileRecord) (destExisted : Bool) (seq : UInt64) (ts : Int64) :
    Except MetaStoreError ApplyOutcome :=
  let old := captureOldFile store bucket parentIno target seq ts
  match bumpSentinelChildDelta store bucket parentIno (if destExisted then -1 else 0) ts with
  | .error e => .error e
  | .ok bump =>
    .ok ⟨old.1 ++ packedPuts bucket parentIno target { file with mtime := ts }
        ++ WriteOp.delete .Fs (fsKey bucket parentIno source)
          :: deleteSegments store bucket parentIno source ++ bump, .None,
      { inlineBytes := -old.2.1.toInt64
        inlineCount := -old.2.2.1.toInt64
        totalBytes := -old.2.2.2.toInt64 }⟩

def applyRenameSameDir (store : MetaStore) (bucket : BucketId) (parentIno : UInt64)
    (source target : Bytes) (seq : UInt64) (ts : Int64) : Except MetaStoreError ApplyOutcome :=
  if source = target then .ok (.noDelta [] .None)
  else
    match readRecord store bucket parentIno source with
    | .error e => .error e
    | .ok none => .ok (rejected "source not found")
    | .ok (some (.Dir _)) => .ok (rejected "source is a directory (v1 renames files only)")
    | .ok (some (.Sentinel _)) => .ok (rejected "source is a directory (v1 renames files only)")
    | .ok (some (.File file)) =>
      match readRecord store bucket parentIno target with
      | .error e => .error e
      | .ok (some (.Dir _)) => .ok (rejected "destination is a directory")
      | .ok (some (.Sentinel _)) => .ok (rejected "destination is a directory")
      | .ok (some (.File _)) => renameFile store bucket parentIno source target file true seq ts
      | .ok none => renameFile store bucket parentIno source target file false seq ts

/-! ## Directories -/

def applyMkdirSentinel (store : MetaStore) (bucket : BucketId) (parentIno : UInt64)
    (name : Bytes) (ts : Int64) (ino : InoAllocator) :
    Except MetaStoreError (ApplyOutcome × InoAllocator) :=
  match ino.mint with
  | .error e => .error e
  | .ok (childIno, ino') =>
    let key := fsKey bucket childIno SENTINEL_NAME
    let ops := match store.get .Fs key with
      | some _ => []
      | none =>
        [WriteOp.put .Fs key (.Fs (.Sentinel
          { ino := childIno, mtime := ts, entryCount := .Exact 0
            parentLink := some (parentIno, name), createdTs := ts }))]
    .ok (.noDelta ops (.MintedIno childIno), ino')

def applyMkdirLink (store : MetaStore) (bucket : BucketId) (parentIno : UInt64) (name : Bytes)
    (childIno : UInt64) (ts : Int64) : Except MetaStoreError ApplyOutcome :=
  let link : Except MetaStoreError ApplyOutcome :=
    match bumpSentinelChildDelta store bucket parentIno 1 ts with
    | .error e => .error e
    | .ok bump =>
      .ok (.noDelta (WriteOp.put .Fs (fsKey bucket parentIno name) (.Fs (.Dir ⟨childIno⟩))
        :: bump) .None)
  if name = [] then .ok (rejected "empty directory name")
  else
    match readRecord store bucket parentIno name with
    | .error e => .error e
    | .ok (some (.Dir existing)) =>
      if existing.ino = childIno then .ok (.noDelta [] .None)
      else .ok (rejected "name already links another directory")
    | .ok (some (.File _)) => .ok (rejected "name is a file")
    | .ok (some (.Sentinel _)) => link
    | .ok none => link

def applyRmdirUnlink (store : MetaStore) (bucket : BucketId) (parentIno : UInt64) (name : Bytes)
    (ts : Int64) : Except MetaStoreError ApplyOutcome :=
  match readRecord store bucket parentIno name with
  | .error e => .error e
  | .ok (some (.File _)) => .ok (rejected "name is a file")
  | .ok (some (.Sentinel _)) => .ok (.noDelta [] .None)
  | .ok none => .ok (.noDelta [] .None)
  | .ok (some (.Dir _)) =>
    match bumpSentinelChildDelta store bucket parentIno (-1) ts with
    | .error e => .error e
    | .ok bump =>
      .ok (.noDelta (WriteOp.delete .Fs (fsKey bucket parentIno name) :: bump) .None)

/-- Whether a directory's range holds more than one entry. -/
def directoryHasChildren (store : MetaStore) (bucket : BucketId) (dirIno : UInt64) : Bool :=
  let start := MetaCf.Fs.tag :: (be64 bucket ++ be64 dirIno)
  let stop := (prefixEnd start).getD [MetaCf.Fs.tag + 1]
  decide (1 < (store.scan .Fs start stop 2).length)

def applyRmdirSentinel (store : MetaStore) (bucket : BucketId) (dirIno : UInt64) : ApplyOutcome :=
  match store.get .Fs (fsKey bucket dirIno SENTINEL_NAME) with
  | none => .noDelta [] .None
  | some _ =>
    if directoryHasChildren store bucket dirIno then rejected "directory not empty"
    else .noDelta [WriteOp.delete .Fs (fsKey bucket dirIno SENTINEL_NAME)] .None

/-- `ns_hier::apply`. -/
def apply (store : MetaStore) (op : HierOp) (seq : UInt64) (ino : InoAllocator) :
    Except MetaStoreError (ApplyOutcome × InoAllocator) :=
  match op with
  | .Write bucket parentIno name size etag content http ts =>
    applyWrite store bucket parentIno name size etag content http ts seq ino
  | .Unlink bucket parentIno name ts =>
    (applyUnlink store bucket parentIno name seq ts).map (·, ino)
  | .MkdirSentinel bucket parentIno name ts =>
    applyMkdirSentinel store bucket parentIno name ts ino
  | .MkdirLink bucket parentIno name childIno ts =>
    (applyMkdirLink store bucket parentIno name childIno ts).map (·, ino)
  | .RmdirUnlink bucket parentIno name ts =>
    (applyRmdirUnlink store bucket parentIno name ts).map (·, ino)
  | .RmdirSentinel bucket dirIno _ => .ok (applyRmdirSentinel store bucket dirIno, ino)
  | .RenameSameDir bucket parentIno source target ts =>
    (applyRenameSameDir store bucket parentIno source target seq ts).map (·, ino)

/-! ## Reads -/

/-- `lookup`. -/
def lookup (store : MetaStore) (bucket : BucketId) (parentIno : UInt64) (name : Bytes) :
    Except MetaStoreError (Option FsRecord) :=
  readRecord store bucket parentIno name

end Hier

/-- A bucket's root directory. -/
def demoRoot : MetaStore :=
  KvStore.empty.applyBatch [WriteOp.put .Fs (Hier.fsKey 1 ROOT_INO Hier.SENTINEL_NAME)
    (.Fs (.Sentinel ⟨ROOT_INO, 0, .Exact 0, none, 0⟩))]

/-- A Write of `n` distinct slices in the root directory. -/
def demoWrite (name : Bytes) (n : ℕ) : HierOp :=
  .Write 1 ROOT_INO name 0 0 (.Slices ((List.range n).map fun i => ⟨UInt32.ofNat i, [], 0⟩))
    HttpMeta.default 0

end Epoch
