import Epoch.Meta.Flat.Refinement

/-!
# Multipart uploads through gateways (`epoch-gateway/src/http.rs`)

An upload is one `CreateMultipartUpload` call and the later calls that use the id it returned.  Every gateway
takes the id from its own clock, and the metadata layer keeps the sessions under the object's key and this id.

`Upload` is what an upload is on its own: the entries its own calls have stored.  A state carries the shared
store and, as a history variable, one such record per `Create` call; a call changes the record of its own upload
only.  When two uploads of a key begin in the same millisecond they share one session
(`same_millisecond_shares_session`), and the walk that discards a session also takes entries of keys that
continue its own key and id.  `uploads_isolated` says that otherwise every call is answered as if its upload
were alone, and an accepted `Complete` makes the object of exactly its own parts.
-/

namespace Epoch

/-- `assemble_parts` over any way to look parts up. -/
def Flat.assembleFrom (lookup : UInt32 → Option MetaValue) :
    List PartRef → UInt64 → List Slice → Except MetaStoreError Flat.Assembly
  | [], size, slices => .ok (.Assembled size slices)
  | ref :: rest, size, slices =>
    match lookup ref.partNo with
    | none => .ok (.Rejected ("part " ++ toString ref.partNo ++ " missing"))
    | some raw =>
      match decode MetaValue.part? raw with
      | .error e => .error e
      | .ok part =>
        if part.etag ≠ ref.etag then
          .ok (.Rejected ("part " ++ toString ref.partNo ++ " etag mismatch"))
        else
          Flat.assembleFrom lookup rest (saturatingAdd size part.size) (slices ++ part.slices)

lemma Flat.assembleParts_eq (store : MetaStore) (b : BucketId) (k : Bytes) (id : BitVec 128)
    (refs : List PartRef) (size : UInt64) (slices : List Slice) :
    Flat.assembleParts store b k id refs size slices
      = Flat.assembleFrom (fun p => store.get .Upload (Flat.uploadKey b k id p)) refs size slices := by
  induction refs generalizing size slices with
  | nil => rfl
  | cons r rest ih =>
    rw [Flat.assembleParts, Flat.assembleFrom]
    cases store.get .Upload (Flat.uploadKey b k id r.partNo) with
    | none => rfl
    | some raw => cases hdec : decode MetaValue.part? raw <;> simp only [hdec, ih]

namespace Gateway

/-! ## One upload on its own -/

/-- `now_millis() as u128`. -/
def mintUploadId (nowMillis : Int64) : BitVec 128 := BitVec.ofInt 128 nowMillis.toInt

/-- An upload with what its own calls have stored: the session under 0, the parts under their numbers. -/
structure Upload where
  bucket : BucketId
  key : Bytes
  id : BitVec 128
  entries : UInt32 → Option MetaValue

namespace Upload

variable (u : Upload)

def name : BucketId × Bytes × BitVec 128 := (u.bucket, u.key, u.id)

def created (bucket : BucketId) (key : Bytes) (id : BitVec 128) (ts : Int64) : Upload :=
  ⟨bucket, key, id, Function.update (fun _ => none) 0 (some (.Session ⟨id, ts⟩))⟩

def closed : Upload := { u with entries := fun _ => none }

def abort : Upload :=
  match u.entries 0 with
  | none => u
  | some _ => u.closed

def putPart (partNo : UInt32) (part : PartMeta) : MetaResponse × Upload :=
  match u.entries 0 with
  | none => (.Rejected "unknown upload id", u)
  | some _ => (.None, { u with entries := Function.update u.entries partNo (some (.Part part)) })

def complete (refs : List PartRef) : Except MetaStoreError MetaResponse × Upload :=
  match u.entries 0 with
  | none => (.ok (.Rejected "unknown upload id"), u)
  | some _ =>
    if refs = [] then (.ok (.Rejected "empty part list"), u)
    else
      match Flat.assembleFrom u.entries refs 0 [] with
      | .error e => (.error e, u)
      | .ok (.Rejected reason) => (.ok (.Rejected reason), u)
      | .ok (.Assembled _ _) => (.ok .None, u.closed)

/-- The uploaded parts that a list names, in listed order. -/
def listed (refs : List PartRef) : List PartMeta :=
  refs.filterMap fun ref => (u.entries ref.partNo).bind MetaValue.part?

/-- The object that the listed parts make up. -/
def object (blake3 : Bytes → BitVec 256) (refs : List PartRef) (ts : Int64) : ObjectHead :=
  Flat.completedHead blake3 refs ((u.listed refs).foldl (fun n p => saturatingAdd n p.size) 0)
    ((u.listed refs).flatMap PartMeta.slices) ts

/-- The listed parts, when each of them is there. -/
lemma listed_eq {refs : List PartRef} {found : List PartMeta}
    (h : List.Forall₂ (fun (r : PartRef) p => u.entries r.partNo = some (.Part p) ∧ p.etag = r.etag)
      refs found) :
    u.listed refs = found ∧ found.map PartMeta.etag = refs.map PartRef.etag := by
  induction h with
  | nil => exact ⟨rfl, rfl⟩
  | cons hr _ ih =>
    refine ⟨?_, by rw [List.map_cons, List.map_cons, hr.2, ih.2]⟩
    rw [listed, List.filterMap_cons, hr.1]
    exact congrArg (_ :: ·) ih.1

/-- An upload changes with a `Complete` only when the `Complete` is accepted. -/
lemma complete_cases (refs : List PartRef) :
    (u.complete refs).1 = .ok .None ∧ (u.complete refs).2 = u.closed
      ∨ (u.complete refs).1 ≠ .ok .None ∧ (u.complete refs).2 = u := by
  rw [complete]
  cases u.entries 0 with
  | none => exact Or.inr ⟨by simp, rfl⟩
  | some session =>
    by_cases hnil : refs = []
    · simp only [hnil, if_true]
      exact Or.inr ⟨by simp, trivial⟩
    · simp only [hnil, if_false]
      cases Flat.assembleFrom u.entries refs 0 [] with
      | error e => exact Or.inr ⟨by simp, rfl⟩
      | ok a =>
        cases a with
        | Rejected reason => exact Or.inr ⟨by simp, rfl⟩
        | Assembled size slices => exact Or.inl ⟨rfl, rfl⟩

end Upload

/-! ## Uploads over one store -/

structure Uploads where
  store : MetaStore
  uploads : List Upload

inductive UploadCall
  /-- `nowMillis` is the gateway's clock for the id, `ts` its next reading. -/
  | create (bucket : BucketId) (key : Bytes) (nowMillis ts : Int64)
  | putPart (upload : ℕ) (partNo : UInt32) (part : PartMeta) (ts : Int64)
  | complete (upload : ℕ) (refs : List PartRef) (ts : Int64)
  | abort (upload : ℕ) (ts : Int64)
  /-- Calls that are not about uploads. -/
  | put (bucket : BucketId) (key : Bytes) (head : ObjectHead) (ts : Int64)
  | delete (bucket : BucketId) (key : Bytes) (ts : Int64)

namespace Uploads

def new : Uploads := ⟨KvStore.empty, []⟩

variable (s : Uploads)

/-- The metadata op that a call proposes; a call uses the id that its own `Create` returned. -/
def op : UploadCall → Option FlatOp
  | .create bucket key nowMillis ts =>
    some (.CreateMultipart bucket key (mintUploadId nowMillis) ts)
  | .putPart n partNo part ts =>
    s.uploads[n]?.map fun u => .PutPart u.bucket u.key u.id partNo part ts
  | .complete n refs ts =>
    s.uploads[n]?.map fun u => .CompleteMultipart u.bucket u.key u.id refs ts
  | .abort n ts => s.uploads[n]?.map fun u => .AbortMultipart u.bucket u.key u.id ts
  | .put bucket key head ts => some (.Put bucket key head ts)
  | .delete bucket key ts => some (.Delete bucket key ts)

/-- What the call does to its own upload. -/
def after : UploadCall → List Upload
  | .create bucket key nowMillis ts =>
    s.uploads ++ [.created bucket key (mintUploadId nowMillis) ts]
  | .putPart n partNo part _ => s.uploads.modify n fun u => (u.putPart partNo part).2
  | .complete n refs _ => s.uploads.modify n fun u => (u.complete refs).2
  | .abort n _ => s.uploads.modify n Upload.abort
  | .put _ _ _ _ | .delete _ _ _ => s.uploads

/-- How the call would be answered if its upload were alone. -/
def expected : UploadCall → Except MetaStoreError MetaResponse
  | .putPart n partNo part _ =>
    .ok ((s.uploads[n]?.map fun u => (u.putPart partNo part).1).getD .None)
  | .complete n refs _ => (s.uploads[n]?.map fun u => (u.complete refs).1).getD (.ok .None)
  | .create _ _ _ _ | .abort _ _ | .put _ _ _ _ | .delete _ _ _ => .ok .None

/-- The call's op is applied to the shared store under a sequence number. -/
def step (blake3 : Bytes → BitVec 256) (s : Uploads) (call : UploadCall × UInt64) : Uploads :=
  match s.op call.1 with
  | none => s
  | some op =>
    match Flat.apply blake3 s.store op call.2 with
    | .error _ => ⟨s.store, s.after call.1⟩
    | .ok out => ⟨s.store.applyBatch out.ops, s.after call.1⟩

/-- The call is answered as if its upload were alone, and an accepted `Complete` makes the object of the parts
that were uploaded under its own `Create`. -/
structure Isolated (blake3 : Bytes → BitVec 256) (s : Uploads) (call : UploadCall × UInt64) :
    Prop where
  response : ∀ op, s.op call.1 = some op →
    (Flat.apply blake3 s.store op call.2).map ApplyOutcome.response = s.expected call.1
  object : ∀ n refs ts u, call.1 = .complete n refs ts → s.uploads[n]? = some u →
    s.expected call.1 = .ok .None →
      (u.listed refs).map PartMeta.etag = refs.map PartRef.etag
        ∧ Flat.getObjectMeta (step blake3 s call).store u.bucket u.key
          = .ok (some (u.object blake3 refs ts).view)

/-- Every entry under the upload's prefix is as long as an entry of the upload. -/
def OwnEntries (store : MetaStore) (u : Upload) : Prop :=
  ∀ e ∈ Flat.scanSession store u.bucket u.key u.id,
    e.1.length = (Flat.uploadPrefix u.bucket u.key u.id).length + 4

instance (store : MetaStore) (u : Upload) : Decidable (OwnEntries store u) :=
  inferInstanceAs (Decidable (∀ e ∈ Flat.scanSession store u.bucket u.key u.id, _))

/-- A new upload gets an id that no upload of the key had; the walk of a discard finds entries of its own upload
only; and the segments of a completed object can be numbered by a `u32`. -/
def Apart (s : Uploads) (call : UploadCall × UInt64) : Prop :=
  match call.1 with
  | .create bucket key nowMillis _ =>
    ∀ u ∈ s.uploads, u.name ≠ (bucket, key, mintUploadId nowMillis)
  | .complete n refs _ => ∀ u ∈ s.uploads[n]?, OwnEntries s.store u
      ∧ ((u.listed refs).flatMap PartMeta.slices).length ≤ maxSlices
  | .abort n _ => ∀ u ∈ s.uploads[n]?, OwnEntries s.store u
  | .putPart _ _ _ _ | .put _ _ _ _ | .delete _ _ _ => True

instance (s : Uploads) : (call : UploadCall × UInt64) → Decidable (Apart s call)
  | (.create bucket key nowMillis _, _) =>
    inferInstanceAs (Decidable (∀ u ∈ s.uploads, u.name ≠ (bucket, key, mintUploadId nowMillis)))
  | (.complete n _ _, _) => inferInstanceAs (Decidable (∀ u ∈ s.uploads[n]?, _ ∧ _))
  | (.abort n _, _) => inferInstanceAs (Decidable (∀ u ∈ s.uploads[n]?, OwnEntries s.store u))
  | (.putPart _ _ _ _, _) | (.put _ _ _ _, _) | (.delete _ _ _, _) =>
    inferInstanceAs (Decidable True)

/-! ## The store holds every upload's own entries -/

/-- The stored entries are those of the uploads, and no two uploads have one name. -/
structure Agrees (s : Uploads) : Prop where
  entries : ∀ (n : ℕ) (u : Upload), s.uploads[n]? = some u → ∀ p,
    s.store.get .Upload (Flat.uploadKey u.bucket u.key u.id p) = u.entries p
  known : ∀ b k id p v, s.store.get .Upload (Flat.uploadKey b k id p) = some v →
    ∃ (n : ℕ) (u : Upload), s.uploads[n]? = some u ∧ u.name = (b, k, id)
  distinct : ∀ (n m : ℕ) (u v : Upload), s.uploads[n]? = some u → s.uploads[m]? = some v → u.name = v.name → n = m

lemma agrees_new : Agrees new where
  entries := fun _ _ h => by cases h
  known := fun _ _ _ _ _ h => by cases h
  distinct := fun _ _ _ _ h => by cases h

section Keys

variable {store : MetaStore} {b : BucketId} {k : Bytes} {id : BitVec 128} {p : UInt32}

lemma prefix_uploadKey : Flat.uploadPrefix b k id <+: Flat.uploadKey b k id p := by
  rw [Flat.uploadPrefix, Flat.uploadKey, flatKey_prefix_iff, uploadPartSuffix]
  exact ⟨rfl, be32 p, by rw [List.append_assoc]⟩

lemma length_uploadKey :
    (Flat.uploadKey b k id p).length = (Flat.uploadPrefix b k id).length + 4 := by
  simp only [Flat.uploadKey, Flat.uploadPrefix, flatKey, uploadPartSuffix, List.length_cons,
    List.length_append, length_be32]
  omega

variable {v : MetaValue} {ops : List StoreOp}

/-- What an upload's walk finds, when it is only as long as its own entries, is its own. -/
lemma OwnEntries.name_eq {u : Upload} (h : OwnEntries store u)
    (hget : store.get .Upload (Flat.uploadKey b k id p) = some v)
    (hinit : Flat.uploadPrefix u.bucket u.key u.id <+: Flat.uploadKey b k id p) :
    (b, k, id) = u.name := by
  have hlen := h (Flat.uploadKey b k id p, v)
    ((mem_scanPrefix (by decide) (by decide)).mpr ⟨hget, hinit⟩)
  rw [length_uploadKey] at hlen
  have hk : u.key.length = k.length := by
    simp only [Flat.uploadPrefix, flatKey, List.length_cons, List.length_append, length_be64,
      length_be128] at hlen
    omega
  rw [Flat.uploadPrefix, Flat.uploadKey, flatKey_prefix_iff, uploadPartSuffix] at hinit
  obtain ⟨hb, t, ht⟩ := hinit
  rw [List.append_assoc] at ht
  obtain ⟨hkey, hrest⟩ := List.append_inj ht hk
  have hid := (List.append_inj hrest (by rw [length_be128, length_be128])).1
  rw [Upload.name, hb, hkey, be128_inj.mp hid]

/-- A batch that deletes what the walk of a session finds. -/
lemma get_discarded
    (hops : KvStore.on .Upload ops = (Flat.scanSession store b k id).map fun e => (e.1, none))
    (key : Bytes) :
    MetaStore.get (store.applyBatch ops) .Upload key
      = if Flat.uploadPrefix b k id <+: key then none else store.get .Upload key := by
  rw [MetaStore.get, KvStore.applyBatch_cf, hops, Flat.scanSession, Flat.uploadPrefix,
    writeAll_scanPrefix_deletes store (by decide) b k (be128 id) (by decide), OrdMap.get_filter]
  by_cases hinit : flatKey .Upload b k (be128 id) <+: key
  · rw [if_pos hinit, ← List.isPrefixOf_iff_prefix] at *
    cases (store .Upload).get key <;> simp [hinit]
  · rw [if_neg hinit]
    rw [← List.isPrefixOf_iff_prefix, Bool.not_eq_true] at hinit
    cases hget : (store .Upload).get key <;> simp [MetaStore.get, hinit, hget]

/-- A batch that writes one entry of a session. -/
lemma get_put_entry (hops : KvStore.on .Upload ops = [(Flat.uploadKey b k id p, some v)])
    (b' : BucketId) (k' : Bytes) (id' : BitVec 128) (p' : UInt32) :
    MetaStore.get (store.applyBatch ops) .Upload (Flat.uploadKey b' k' id' p')
      = if (b', k', id', p') = (b, k, id, p) then some v
        else store.get .Upload (Flat.uploadKey b' k' id' p') := by
  rw [MetaStore.get, KvStore.applyBatch_cf, hops, OrdMap.writeAll_cons, OrdMap.writeAll_nil,
    OrdMap.get_write]
  by_cases heq : (b', k', id', p') = (b, k, id, p)
  · rw [if_pos heq]
    simp only [Prod.mk.injEq] at heq
    rw [if_pos (by rw [heq.1, heq.2.1, heq.2.2.1, heq.2.2.2])]
  · rw [if_neg heq, if_neg fun hkey => heq ?_]
    · rfl
    · obtain ⟨rfl, rfl, rfl, rfl⟩ := Flat.uploadKey_inj.mp hkey
      rfl

end Keys

section Steps

variable {s : Uploads} {blake3 : Bytes → BitVec 256} {seq : UInt64} {n : ℕ} {u : Upload}
  {f : Upload → Upload}

/-- A call of upload `n` that rewrites its entries and leaves the entries of all other names alone. -/
lemma Agrees.modify (h : s.Agrees) {n : ℕ} {u : Upload} (hu : s.uploads[n]? = some u)
    {f : Upload → Upload} (hname : (f u).name = u.name) {store' : MetaStore}
    (hown : ∀ p, store'.get .Upload (Flat.uploadKey u.bucket u.key u.id p) = (f u).entries p)
    (hother : ∀ b k id p, (b, k, id) ≠ u.name →
      store'.get .Upload (Flat.uploadKey b k id p) = s.store.get .Upload (Flat.uploadKey b k id p)) :
    Agrees ⟨store', s.uploads.modify n f⟩ := by
  have hget : ∀ m v, (s.uploads.modify n f)[m]? = some v →
      ∃ w, s.uploads[m]? = some w ∧ w.name = v.name ∧ (m = n → v = f u) ∧ (m ≠ n → v = w) := by
    intro m v hv
    rw [List.getElem?_modify] at hv
    obtain ⟨w, hw, heq⟩ := Option.map_eq_some_iff.mp hv
    refine ⟨w, hw, ?_, fun hm => ?_, fun hm => ?_⟩
    · by_cases hm : n = m
      · rw [if_pos hm] at heq
        rw [← hm, hu] at hw
        rw [← heq, ← Option.some.inj hw, hname]
      · rw [if_neg hm] at heq
        rw [heq]
    · rw [if_pos hm.symm] at heq
      rw [hm, hu] at hw
      rw [← heq, ← Option.some.inj hw]
    · rw [if_neg (Ne.symm hm)] at heq
      exact heq.symm
  refine ⟨fun m v hv p => ?_, fun b k id p v hv => ?_, fun m m' v v' hv hv' hnames => ?_⟩
  · obtain ⟨w, hw, hwname, hsame, hdiff⟩ := hget m v hv
    by_cases hm : m = n
    · rw [hsame hm]
      have hkey : (f u).name = u.name := hname
      simp only [Upload.name, Prod.mk.injEq] at hkey
      rw [hkey.1, hkey.2.1, hkey.2.2]
      exact hown p
    · rw [hdiff hm]
      have hne : w.name ≠ u.name := fun heq => hm (h.distinct m n w u hw hu heq)
      rw [hother w.bucket w.key w.id p hne]
      exact h.entries m w hw p
  · by_cases hne : (b, k, id) = u.name
    · refine ⟨n, f u, ?_, by rw [hname, hne]⟩
      simp only [List.getElem?_modify, hu, if_true, Option.map_eq_map, Option.map_some]
    · rw [hother b k id p hne] at hv
      obtain ⟨m, w, hw, hwname⟩ := h.known b k id p v hv
      have hm : n ≠ m := by
        rintro rfl
        rw [hu] at hw
        rw [← Option.some.inj hw] at hwname
        exact hne hwname.symm
      refine ⟨m, w, ?_, hwname⟩
      simp only [List.getElem?_modify, hw, hm, if_false, Option.map_eq_map, Option.map_some]
  · obtain ⟨w, hw, hwname, -⟩ := hget m v hv
    obtain ⟨w', hw', hwname', -⟩ := hget m' v' hv'
    exact h.distinct m m' w w' hw hw' (by rw [hwname, hwname', hnames])

variable {ops : List StoreOp} {refs : List PartRef}

/-- A batch that writes nothing about uploads. -/
lemma Agrees.frame (h : s.Agrees) (hops : KvStore.on .Upload ops = []) :
    Agrees ⟨s.store.applyBatch ops, s.uploads⟩ := by
  have hget : ∀ key, MetaStore.get (s.store.applyBatch ops) .Upload key
      = s.store.get .Upload key := by
    intro key
    rw [MetaStore.get, KvStore.applyBatch_of_on_eq_nil hops]
    rfl
  refine ⟨fun n u hu p => ?_, fun b k id p v hv => ?_, h.distinct⟩
  · rw [hget]
    exact h.entries n u hu p
  · rw [hget] at hv
    exact h.known b k id p v hv

/-- A discard clears its own upload. -/
lemma Agrees.discard (h : s.Agrees) {n : ℕ} {u : Upload} (hu : s.uploads[n]? = some u)
    {f : Upload → Upload} (hf : f u = u.closed) (hentries : OwnEntries s.store u)
    (hops : KvStore.on .Upload ops = (Flat.scanSession s.store u.bucket u.key u.id).map fun e => (e.1, none)) :
    Agrees ⟨s.store.applyBatch ops, s.uploads.modify n f⟩ := by
  refine h.modify hu (by rw [hf]; rfl) (fun p => ?_) fun b k id p hne => ?_
  · rw [get_discarded hops, if_pos prefix_uploadKey, hf]
    rfl
  · rw [get_discarded hops]
    split_ifs with hinit
    · cases hget : s.store.get .Upload (Flat.uploadKey b k id p) with
      | none => rfl
      | some v => exact absurd (hentries.name_eq hget hinit) hne
    · rfl

/-- Nothing changes when the own entries stay. -/
lemma Agrees.keep (h : s.Agrees) (hf : ∀ u, s.uploads[n]? = some u → f u = u) :
    Agrees ⟨s.store, s.uploads.modify n f⟩ := by
  have hsame : s.uploads.modify n f = s.uploads := by
    apply List.ext_getElem?
    intro m
    rw [List.getElem?_modify]
    cases hm : s.uploads[m]? with
    | none => rfl
    | some v =>
      by_cases hn : n = m
      · subst hn
        simp [hf v hm]
      · simp [hn]
  rw [hsame]
  exact h

lemma Agrees.create (h : s.Agrees) {b : BucketId} {k : Bytes} {nowMillis ts : Int64}
    (hnew : Apart s (.create b k nowMillis ts, seq)) :
    Agrees (step blake3 s (.create b k nowMillis ts, seq)) := by
  have hfree : ∀ p, s.store.get .Upload (Flat.uploadKey b k (mintUploadId nowMillis) p) = none := by
    intro p
    refine Option.eq_none_iff_forall_not_mem.mpr fun v hv => ?_
    obtain ⟨n, u, hu, hname⟩ := h.known b k (mintUploadId nowMillis) p v hv
    exact hnew u (List.mem_of_getElem? hu) hname
  have hstep : step blake3 s (.create b k nowMillis ts, seq)
      = ⟨s.store.applyBatch [WriteOp.put .Upload (Flat.uploadKey b k (mintUploadId nowMillis) 0)
          (.Session ⟨mintUploadId nowMillis, ts⟩)],
        s.uploads ++ [.created b k (mintUploadId nowMillis) ts]⟩ := by
    simp only [step, op, after, Flat.apply, Flat.applyCreate, hfree 0]
    rfl
  have hops : KvStore.on MetaCf.Upload [WriteOp.put MetaCf.Upload
      (Flat.uploadKey b k (mintUploadId nowMillis) 0)
      (MetaValue.Session ⟨mintUploadId nowMillis, ts⟩)]
      = [(Flat.uploadKey b k (mintUploadId nowMillis) 0,
        some (.Session ⟨mintUploadId nowMillis, ts⟩))] := rfl
  rw [hstep]
  have hlast : ∀ m v, (s.uploads ++ [Upload.created b k (mintUploadId nowMillis) ts])[m]? = some v →
      s.uploads[m]? = some v
        ∨ m = s.uploads.length ∧ v = .created b k (mintUploadId nowMillis) ts := by
    intro m v hv
    by_cases hm : m < s.uploads.length
    · rw [List.getElem?_append_left hm] at hv
      exact Or.inl hv
    · rw [List.getElem?_append_right (not_lt.mp hm)] at hv
      have hzero := (List.getElem?_eq_some_iff.mp hv).1
      rw [List.length_singleton] at hzero
      have hm' : m = s.uploads.length := by omega
      rw [hm', Nat.sub_self] at hv
      exact Or.inr ⟨hm', (Option.some.inj hv).symm⟩
  refine ⟨fun m v hv p => ?_, fun b' k' id' p v hv => ?_, fun m m' v v' hv hv' hnames => ?_⟩
  · rw [get_put_entry hops]
    rcases hlast m v hv with hold | ⟨-, rfl⟩
    · have hne : v.name ≠ (b, k, mintUploadId nowMillis) := hnew v (List.mem_of_getElem? hold)
      rw [if_neg fun heq => hne ?_]
      · exact h.entries m v hold p
      · simp only [Prod.mk.injEq] at heq
        rw [Upload.name, heq.1, heq.2.1, heq.2.2.1]
    · simp only [Upload.created, Function.update_apply, Prod.mk.injEq, true_and]
      split_ifs
      · rfl
      · exact hfree p
  · rw [get_put_entry hops] at hv
    split_ifs at hv with heq
    · simp only [Prod.mk.injEq] at heq
      refine ⟨s.uploads.length, .created b k (mintUploadId nowMillis) ts, ?_, ?_⟩
      · rw [List.getElem?_append_right le_rfl, Nat.sub_self]
        rfl
      · rw [heq.1, heq.2.1, heq.2.2.1]
        rfl
    · obtain ⟨m, w, hw, hname⟩ := h.known b' k' id' p v hv
      refine ⟨m, w, ?_, hname⟩
      rw [List.getElem?_append_left (List.getElem?_eq_some_iff.mp hw).1]
      exact hw
  · rcases hlast m v hv with hold | ⟨rfl, rfl⟩
    · rcases hlast m' v' hv' with hold' | ⟨-, rfl⟩
      · exact h.distinct m m' v v' hold hold' hnames
      · exact absurd hnames (hnew v (List.mem_of_getElem? hold))
    · rcases hlast m' v' hv' with hold' | ⟨hm', -⟩
      · exact absurd hnames.symm (hnew v' (List.mem_of_getElem? hold'))
      · exact hm'.symm

lemma Agrees.lookup (h : s.Agrees) (hu : s.uploads[n]? = some u) :
    (fun p => s.store.get .Upload (Flat.uploadKey u.bucket u.key u.id p)) = u.entries :=
  funext (h.entries n u hu)

lemma Agrees.putPart (h : s.Agrees) (hu : s.uploads[n]? = some u) (partNo : UInt32)
    (part : PartMeta) (ts : Int64) :
    (Flat.applyPutPart s.store u.bucket u.key u.id partNo part seq ts).response
        = (u.putPart partNo part).1
      ∧ Agrees ⟨s.store.applyBatch
          (Flat.applyPutPart s.store u.bucket u.key u.id partNo part seq ts).ops,
        s.uploads.modify n fun u => (u.putPart partNo part).2⟩ := by
  have hsession := h.entries n u hu 0
  cases hopen : u.entries 0 with
  | none =>
    have hout : Flat.applyPutPart s.store u.bucket u.key u.id partNo part seq ts
        = .noDelta [] (.Rejected "unknown upload id") := by
      rw [Flat.applyPutPart, hsession, hopen]
    rw [hout]
    refine ⟨by rw [Upload.putPart, hopen]; rfl, h.keep fun v hv => ?_⟩
    rw [← Option.some.inj (hu.symm.trans hv), Upload.putPart, hopen]
  | some session =>
    have hput : u.putPart partNo part
        = (.None, { u with entries := Function.update u.entries partNo (some (.Part part)) }) := by
      rw [Upload.putPart, hopen]
    rcases Flat.applyPutPart_cases s.store u.bucket u.key u.id partNo part seq ts with
      hrejected | ⟨-, hresponse, hon⟩
    · rw [Flat.applyPutPart, hsession, hopen] at hrejected
      exact absurd (congrArg ApplyOutcome.response hrejected) (by simp [ApplyOutcome.noDelta])
    refine ⟨by rw [hresponse, hput], h.modify hu (by rw [hput]; rfl) (fun p => ?_) ?_⟩
    · rw [get_put_entry (hon .Upload), hput]
      simp only [Prod.mk.injEq, true_and, Function.update_apply]
      split_ifs
      · rfl
      · exact h.entries n u hu p
    · intro b k id p hne
      rw [get_put_entry (hon .Upload), if_neg fun heq => hne ?_]
      simp only [Prod.mk.injEq] at heq
      rw [Upload.name, heq.1, heq.2.1, heq.2.2.1]

lemma Agrees.abort (h : s.Agrees) (hu : s.uploads[n]? = some u) (hentries : OwnEntries s.store u)
    (ts : Int64) :
    Agrees ⟨s.store.applyBatch (Flat.applyAbort s.store u.bucket u.key u.id seq ts).ops,
      s.uploads.modify n Upload.abort⟩ := by
  have hsession := h.entries n u hu 0
  cases hopen : u.entries 0 with
  | none =>
    have hout : Flat.applyAbort s.store u.bucket u.key u.id seq ts = .noDelta [] .None := by
      rw [Flat.applyAbort, hsession, hopen]
    rw [hout]
    refine h.keep fun v hv => ?_
    rw [← Option.some.inj (hu.symm.trans hv), Upload.abort, hopen]
  | some session =>
    refine h.discard hu (by rw [Upload.abort, hopen]) hentries ?_
    rw [Flat.on_applyAbort, if_neg (by rw [hsession, hopen]; simp), if_pos rfl]

variable (blake3 seq) in
/-- A `Complete` is answered as if its upload were alone. -/
lemma Agrees.complete_response (h : s.Agrees) (hu : s.uploads[n]? = some u) (refs : List PartRef)
    (ts : Int64) :
    (Flat.applyComplete blake3 s.store u.bucket u.key u.id refs seq ts).map ApplyOutcome.response
      = (u.complete refs).1 := by
  rw [Flat.applyComplete, Upload.complete, h.entries n u hu 0]
  cases u.entries 0 with
  | none => rfl
  | some session =>
    by_cases hnil : refs = []
    · rw [if_pos hnil, if_pos hnil]
      rfl
    · rw [if_neg hnil, if_neg hnil, Flat.assembleParts_eq, h.lookup hu]
      cases Flat.assembleFrom u.entries refs 0 [] with
      | error e => rfl
      | ok a => cases a <;> rfl

variable (blake3 seq) in
/-- An accepted `Complete` finds exactly the listed parts of its own upload. -/
lemma Agrees.complete_accepted (h : s.Agrees) (hu : s.uploads[n]? = some u) (ts : Int64)
    (haccepted : (u.complete refs).1 = .ok .None) :
    ∃ out, Flat.applyComplete blake3 s.store u.bucket u.key u.id refs seq ts = .ok out
      ∧ (u.listed refs).map PartMeta.etag = refs.map PartRef.etag
      ∧ out.ops = (Flat.captureOld s.store u.bucket u.key seq ts).ops
          ++ (Flat.discardSession u.bucket u.key seq ts (fun p => p ∉ refs.map PartRef.partNo)
              (Flat.captureOld s.store u.bucket u.key seq ts).nextSegNo
              (Flat.scanSession s.store u.bucket u.key u.id)).1
          ++ Flat.packedPuts u.bucket u.key (u.object blake3 refs ts) := by
  have hresponse := h.complete_response blake3 seq hu refs ts
  rw [haccepted] at hresponse
  cases hout : Flat.applyComplete blake3 s.store u.bucket u.key u.id refs seq ts with
  | error e => simp [hout, Except.map] at hresponse
  | ok out =>
    rw [hout] at hresponse
    rcases Flat.applyComplete_cases hout with
      ⟨reason, rfl⟩ | ⟨found, size, hall, hsize, -, -, hops⟩
    · simp [Except.map, ApplyOutcome.noDelta] at hresponse
    simp only [h.entries n u hu] at hall
    obtain ⟨hfound, hetags⟩ := u.listed_eq hall
    refine ⟨out, rfl, by rw [hfound, hetags], ?_⟩
    rw [hops, Upload.object, hfound, hsize]

lemma Agrees.complete (h : s.Agrees) (hu : s.uploads[n]? = some u)
    (hentries : OwnEntries s.store u) (refs : List PartRef) (ts : Int64) :
    Agrees (step blake3 s (.complete n refs ts, seq)) := by
  have hop : s.op (.complete n refs ts)
      = some (.CompleteMultipart u.bucket u.key u.id refs ts) := by rw [op, hu]; rfl
  have hresponse := h.complete_response blake3 seq hu refs ts
  rcases u.complete_cases refs with ⟨haccepted, hclosed⟩ | ⟨hrefused, hsame⟩
  · obtain ⟨out, hout, -, hops⟩ := h.complete_accepted blake3 seq hu ts haccepted
    have hstep : step blake3 s (.complete n refs ts, seq)
        = ⟨s.store.applyBatch out.ops, s.after (.complete n refs ts)⟩ := by
      simp only [step, hop, Flat.apply, hout]
    rw [hstep]
    refine h.discard hu hclosed hentries ?_
    rw [hops, Flat.on_complete, if_pos rfl]
  · have hkeep : Agrees ⟨s.store, s.after (.complete n refs ts)⟩ := by
      refine h.keep fun v hv => ?_
      rw [← Option.some.inj (hu.symm.trans hv)]
      exact hsame
    cases hout : Flat.applyComplete blake3 s.store u.bucket u.key u.id refs seq ts with
    | error e =>
      have hstep : step blake3 s (.complete n refs ts, seq)
          = ⟨s.store, s.after (.complete n refs ts)⟩ := by
        simp only [step, hop, Flat.apply, hout]
      rw [hstep]
      exact hkeep
    | ok out =>
      have hstep : step blake3 s (.complete n refs ts, seq)
          = ⟨s.store.applyBatch out.ops, s.after (.complete n refs ts)⟩ := by
        simp only [step, hop, Flat.apply, hout]
      rw [hstep]
      rcases Flat.applyComplete_cases hout with ⟨reason, rfl⟩ | ⟨_, _, -, -, -, ⟨hnone, -⟩, -⟩
      · exact hkeep
      · rw [hout, Except.map, hnone] at hresponse
        exact absurd hresponse.symm hrefused

/-- The object after an accepted `Complete` is the one its own listed parts make up. -/
lemma Agrees.complete_object (h : s.Agrees) (hu : s.uploads[n]? = some u) (ts : Int64)
    (haccepted : (u.complete refs).1 = .ok .None)
    (hbound : ((u.listed refs).flatMap PartMeta.slices).length ≤ maxSlices) :
    (u.listed refs).map PartMeta.etag = refs.map PartRef.etag
      ∧ Flat.getObjectMeta (step blake3 s (.complete n refs ts, seq)).store u.bucket u.key
        = .ok (some (u.object blake3 refs ts).view) := by
  obtain ⟨out, hout, hetags, hops⟩ :=
    h.complete_accepted blake3 seq hu ts haccepted
  have hstore : (step blake3 s (.complete n refs ts, seq)).store = s.store.applyBatch out.ops := by
    simp only [step, op, hu, Option.map_some, Flat.apply, hout]
  refine ⟨hetags, ?_⟩
  rw [hstore, hops]
  refine Flat.getObjectMeta_of_head ?_ ?_ hbound
  · rw [MetaStore.get, KvStore.applyBatch_cf, Flat.on_complete, if_neg (by decide),
      if_neg (by decide), Flat.on_captureOld, Flat.on_packedPuts, if_neg (by decide),
      if_neg (by decide), if_pos rfl, List.nil_append, OrdMap.writeAll_cons, OrdMap.writeAll_nil,
      OrdMap.get_write, if_pos rfl]
  · intro i hi
    rw [KvStore.applyBatch_cf, Flat.on_complete, if_neg (by decide), if_neg (by decide),
      Flat.on_packedPuts, if_neg (by decide), if_pos rfl, OrdMap.writeAll_append]
    exact get_segWrites_of_lt (Flat.pack_segments_length (h := u.object blake3 refs ts) hbound) hi

end Steps

variable {call : UploadCall × UInt64}

lemma Agrees.step {s : Uploads} (h : s.Agrees) {blake3 : Bytes → BitVec 256}
    (hapart : Apart s call) : Agrees (step blake3 s call) := by
  obtain ⟨call, seq⟩ := call
  cases call with
  | create b k nowMillis ts => exact h.create hapart
  | putPart n partNo part ts =>
    cases hu : s.uploads[n]? with
    | none =>
      simp only [Uploads.step, op, hu, Option.map_none]
      exact h
    | some u =>
      simp only [Uploads.step, op, hu, Option.map_some, Flat.apply]
      exact (h.putPart hu partNo part ts).2
  | complete n refs ts =>
    cases hu : s.uploads[n]? with
    | none =>
      simp only [Uploads.step, op, hu, Option.map_none]
      exact h
    | some u => exact h.complete hu (hapart u hu).1 refs ts
  | abort n ts =>
    cases hu : s.uploads[n]? with
    | none =>
      simp only [Uploads.step, op, hu, Option.map_none]
      exact h
    | some u =>
      simp only [Uploads.step, op, hu, Option.map_some, Flat.apply]
      exact h.abort hu (hapart u hu) ts
  | put b k head ts =>
    simp only [Uploads.step, op, Flat.apply]
    refine h.frame ?_
    rw [Flat.on_applyPut, Flat.on_captureOld, Flat.on_packedPuts]
    rfl
  | delete b k ts =>
    simp only [Uploads.step, op, Flat.apply]
    refine h.frame ?_
    rw [Flat.on_applyDelete, Flat.on_captureOld]
    rfl

lemma Agrees.isolated {s : Uploads} (h : s.Agrees) {blake3 : Bytes → BitVec 256}
    (hapart : Apart s call) : Isolated blake3 s call := by
  obtain ⟨call, seq⟩ := call
  refine ⟨fun o ho => ?_, ?_⟩
  · cases call with
    | create b k nowMillis ts =>
      obtain rfl := Option.some.inj ho
      rcases Flat.applyCreate_cases s.store b k (mintUploadId nowMillis) ts with
        hout | ⟨-, hout⟩ <;> simp only [Flat.apply, hout] <;> rfl
    | putPart n partNo part ts =>
      obtain ⟨u, hu, rfl⟩ := Option.map_eq_some_iff.mp ho
      simp only [expected, hu, Option.map_some, Option.getD_some]
      exact congrArg Except.ok (h.putPart hu partNo part ts).1
    | complete n refs ts =>
      obtain ⟨u, hu, rfl⟩ := Option.map_eq_some_iff.mp ho
      simp only [expected, hu, Option.map_some, Option.getD_some]
      exact h.complete_response blake3 seq hu refs ts
    | abort n ts =>
      obtain ⟨u, hu, rfl⟩ := Option.map_eq_some_iff.mp ho
      simp only [Flat.apply, Flat.applyAbort]
      cases s.store.get .Upload (Flat.uploadKey u.bucket u.key u.id 0) <;> rfl
    | put b k head ts =>
      obtain rfl := Option.some.inj ho
      rfl
    | delete b k ts =>
      obtain rfl := Option.some.inj ho
      rfl
  · rintro n refs ts u rfl hu haccepted
    simp only [expected, hu, Option.map_some, Option.getD_some] at haccepted
    exact h.complete_object hu ts haccepted (hapart u hu).2

/-- **Uploads do not meet.**  In every run of uploads over any number of keys whose new ids are not in use and
whose discards find entries of their own only, every call is answered as if its upload were alone, and an
accepted `Complete` makes the object of exactly the parts it lists, as they were uploaded under its id. -/
theorem uploads_isolated (blake3 : Bytes → BitVec 256) (calls : List (UploadCall × UInt64))
    (h : Along (step blake3) Apart new calls) : Along (step blake3) (Isolated blake3) new calls :=
  Along.of_invariant (fun _ _ hs hc => hs.step hc) (fun _ _ hs hc => hs.isolated hc) agrees_new h

def demoPart (etag : BitVec 128) (chunkId : UInt32) : PartMeta := ⟨4, etag, [⟨chunkId, [1], 4⟩]⟩

/-- Two uploads of one key begun at the two times; the first uploads part 1, the second part 2, and the first is
completed. -/
def twoUploads (first second : Int64) : List (UploadCall × UInt64) :=
  [(.create 7 [1] first 0, 1), (.create 7 [1] second 0, 2), (.putPart 0 1 (demoPart 11 3) 0, 3),
    (.putPart 1 2 (demoPart 12 4) 0, 4), (.complete 0 [⟨1, 11⟩] 0, 5)]

theorem uploads_isolated_demo :
    Along (step fun _ => 0) Apart new (twoUploads 100 101 ++ [(.complete 1 [⟨2, 12⟩] 0, 6)])
      ∧ Along (step fun _ => 0) (Isolated fun _ => 0) new
        (twoUploads 100 101 ++ [(.complete 1 [⟨2, 12⟩] 0, 6)]) :=
  have h : Along (step fun _ => 0) Apart new
      (twoUploads 100 101 ++ [(.complete 1 [⟨2, 12⟩] 0, 6)]) := by decide +kernel
  ⟨h, uploads_isolated _ _ h⟩

/-- With both uploads begun in one millisecond the second's `Complete` of its own part is rejected: the first's
has taken the session with it. -/
theorem same_millisecond_shares_session :
    (run (step fun _ => 0) new (twoUploads 100 100)).expected (.complete 1 [⟨2, 12⟩] 0) = .ok .None
      ∧ ((run (step fun _ => 0) new (twoUploads 100 100)).op (.complete 1 [⟨2, 12⟩] 0)).map
          (fun op => (Flat.apply (fun _ => 0)
            (run (step fun _ => 0) new (twoUploads 100 100)).store op 6).map ApplyOutcome.response)
        = some (.ok (.Rejected "unknown upload id"))
      ∧ ¬ Isolated (fun _ => 0) (run (step fun _ => 0) new (twoUploads 100 100))
        (.complete 1 [⟨2, 12⟩] 0, 6) := by
  have hop : (run (step fun _ => 0) new (twoUploads 100 100)).op (.complete 1 [⟨2, 12⟩] 0)
      = some (.CompleteMultipart 7 [1] 100 [⟨2, 12⟩] 0) := by decide +kernel
  have hexpected : (run (step fun _ => 0) new (twoUploads 100 100)).expected
      (.complete 1 [⟨2, 12⟩] 0) = .ok .None := by decide +kernel
  have hanswer : (Flat.apply (fun _ => 0) (run (step fun _ => 0) new (twoUploads 100 100)).store
      (.CompleteMultipart 7 [1] 100 [⟨2, 12⟩] 0) 6).map ApplyOutcome.response
      = .ok (.Rejected "unknown upload id") := by decide +kernel
  refine ⟨hexpected, by rw [hop, Option.map_some, hanswer], fun hiso => ?_⟩
  have hsame := hiso.response _ hop
  rw [hanswer, hexpected] at hsame
  exact absurd hsame (by decide)

end Uploads

end Gateway

end Epoch
