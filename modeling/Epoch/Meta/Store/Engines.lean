import Epoch.Lib.BTreeMap
import Epoch.Meta.GcExport

/-!
# The two engines (`store/mem.rs`, `store/rocks.rs`)

Everything above this module reads the store as an ordered map per column family, which is what
RocksDB is taken to be.  The in-memory engine keeps one `BTreeMap` per family and bounds its scans
by `BTreeMap::range`, which panics when the start lies after the end, where a RocksDB iterator just
finds nothing.  Bounds are not always ordered: `list` builds its start from the client's
`start_after` and its end from the client's prefix, and `key_ranges` clamps one end of an interval.

Both engines are put behind the trait's three reads (`Engine`), and the reads built on them, `list`,
`export_page` and `export_references`, are defined over those.  After the same batches the two
engines give the same answer exactly when no scan they come to runs with inverted bounds over a
family that was ever put to (`engines_agree_iff`).
-/

namespace Epoch

/-! ## The engines -/

/-- How a read ends other than with a value. -/
inductive Fault
  | Panic (message : String)
  | Store (error : MetaStoreError)
deriving DecidableEq, Repr

/-- The reads of the `MetaStore` trait; `held` is the number of bindings of a family, which bounds
the paging loops. -/
structure Engine where
  get : MetaCf → Bytes → Except Fault (Option MetaValue)
  scan : MetaCf → Bytes → Bytes → ℕ → Except Fault (List (Bytes × MetaValue))
  snapshot : List KeyRange → Except Fault (List (MetaCf × Bytes × MetaValue))
  held : MetaCf → ℕ

/-- The in-memory engine: a family's map exists once an operation named the family. -/
structure MemEngine where
  map : MetaCf → Option (BTreeMap Bytes MetaValue)

namespace MemEngine

def new : MemEngine := ⟨fun _ => none⟩

def mapMut (m : MemEngine) (cf : MetaCf) : BTreeMap Bytes MetaValue := (m.map cf).getD .empty

def applyOp (m : MemEngine) (op : StoreOp) : MemEngine :=
  let written := match op.value with
    | some value => (m.mapMut op.cf).insert op.key value
    | none => (m.mapMut op.cf).remove op.key
  ⟨fun cf => if cf = op.cf then some written else m.map cf⟩

def apply (m : MemEngine) (ops : List StoreOp) : MemEngine := ops.foldl applyOp m

/-- `BTreeMap::range` of one family, empty while the family has no map. -/
def range (m : MemEngine) (cf : MetaCf) (start stop : Bytes) :
    Except Fault (List (Bytes × MetaValue)) :=
  match m.map cf with
  | none => .ok []
  | some map =>
    match map.range start stop with
    | none => .error (.Panic "range start is greater than range end in BTreeMap")
    | some entries => .ok entries

def get (m : MemEngine) (cf : MetaCf) (key : Bytes) : Option MetaValue :=
  (m.map cf).bind fun map => map.entries.get key

def scan (m : MemEngine) (cf : MetaCf) (start stop : Bytes) (limit : ℕ) :
    Except Fault (List (Bytes × MetaValue)) := do
  let entries ← m.range cf start stop
  return entries.take limit

def snapshot (m : MemEngine) : List KeyRange → Except Fault (List (MetaCf × Bytes × MetaValue))
  | [] => .ok []
  | r :: rs => do
      let entries ← m.range r.cf r.start r.stop
      let rest ← snapshot m rs
      return entries.map (fun e => (r.cf, e)) ++ rest

def engine (m : MemEngine) : Engine where
  get cf key := .ok (m.get cf key)
  scan := m.scan
  snapshot := m.snapshot
  held cf := (m.mapMut cf).entries.toList.length

end MemEngine

/-- RocksDB: seek to the start, walk forward, stop at the end or when the page is full. -/
def MetaStore.engine (store : MetaStore) : Engine where
  get cf key := .ok (store.get cf key)
  scan cf start stop limit := .ok (store.scan cf start stop limit)
  snapshot ranges := .ok (ranges.flatMap fun r =>
    ((store r.cf).seek r.start r.stop).map fun e => (r.cf, e))
  held cf := (store cf).toList.length

/-! ## Reads built on the trait -/

namespace Engine

/-- The scan loop: resume just past the last key until a page comes back empty. -/
def pages (e : Engine) (cf : MetaCf) (stop : Bytes) (limit : ℕ) :
    ℕ → Bytes → Except Fault (List (Bytes × MetaValue))
  | 0, _ => .ok []
  | fuel + 1, cursor =>
    match e.scan cf cursor stop limit with
    | .error fault => .error fault
    | .ok page =>
      match page.getLast? with
      | none => .ok []
      | some last => (pages e cf stop limit fuel (last.1 ++ [0])).map (page ++ ·)

/-- The page loops over a list of intervals, one after the other. -/
def walk (e : Engine) (limit : ℕ) :
    List KeyRange → Except Fault (List (MetaCf × Bytes × MetaValue))
  | [] => .ok []
  | r :: rs =>
    match e.pages r.cf r.stop limit (e.held r.cf + 1) r.start with
    | .error fault => .error fault
    | .ok entries => (e.walk limit rs).map (entries.map (fun x => (r.cf, x)) ++ ·)

/-- `export_references` over an engine. -/
def exportReferences (e : Engine) (range : PartitionRange) : Except Fault (Finset UInt64) :=
  (e.walk SCAN_PAGE (range.keyRanges.filter fun r => r.cf ≠ .Delq ∧ r.cf ≠ .Ttl)).map fun entries =>
    (entries.flatMap fun x => (extract x.1 x.2.2).flatMap Slice.blobIds).toFinset

/-- The inclusive start of a listing. -/
def listStart (bucket : BucketId) (pre : Bytes) : Option Bytes → Bytes
  | none => flatKey .Meta bucket pre []
  | some after => flatKey .Meta bucket after [] ++ [0]

def listEnd (bucket : BucketId) (pre : Bytes) : Bytes :=
  (prefixEnd (flatKey .Meta bucket pre [])).getD [MetaCf.Meta.tag + 1]

/-- Decode a page of heads, stripping tag and bucket from the keys. -/
def decodeHeads : List (Bytes × MetaValue) → Except MetaStoreError (List (Bytes × ObjectHead))
  | [] => .ok []
  | (key, value) :: rest =>
    match decode MetaValue.head? value with
    | .error e => .error e
    | .ok head => (decodeHeads rest).map ((key.drop 9, head) :: ·)

/-- `ns_flat::list`. -/
def list (e : Engine) (bucket : BucketId) (pre : Bytes) (startAfter : Option Bytes)
    (limit : ℕ) : Except Fault (List (Bytes × ObjectHead)) :=
  match e.scan .Meta (listStart bucket pre startAfter) (listEnd bucket pre) limit with
  | .error fault => .error fault
  | .ok page => (decodeHeads page).mapError .Store

end Engine

/-- The interval an export is in and the last key it emitted from it. -/
structure ExportCursor where
  rangeIndex : ℕ
  afterKey : Bytes
deriving DecidableEq, Repr

structure ExportPage where
  entries : List (MetaCf × Bytes × MetaValue)
  next : Option ExportCursor
deriving DecidableEq, Repr

namespace Engine

/-- The inner loop of `export_page` over one interval: the entries so far, and whether the page is
full.  Every round but the last adds an entry, so `limit` bounds the rounds. -/
def exportRange (e : Engine) (r : KeyRange) (limit : ℕ) :
    ℕ → Bytes → List (MetaCf × Bytes × MetaValue) →
      Except Fault (List (MetaCf × Bytes × MetaValue) × Bool)
  | 0, _, entries => .ok (entries, true)
  | fuel + 1, start, entries =>
    if limit ≤ entries.length then .ok (entries, true)
    else
      match e.scan r.cf start r.stop (limit - entries.length) with
      | .error fault => .error fault
      | .ok page =>
        match page.getLast? with
        | none => .ok (entries, false)
        | some last =>
          exportRange e r limit fuel (last.1 ++ [0])
            (entries ++ page.map fun x => (r.cf, x))

/-- The outer loop: `resume` only concerns the first interval. -/
def exportRanges (e : Engine) (limit : ℕ) :
    List (KeyRange × ℕ) → Option Bytes → List (MetaCf × Bytes × MetaValue) →
      Except Fault ExportPage
  | [], _, entries => .ok ⟨entries, none⟩
  | (r, i) :: rs, resume, entries =>
    let start := match resume with
      | some key => key ++ [0]
      | none => r.start
    match e.exportRange r limit (limit + 1) start entries with
    | .error fault => .error fault
    | .ok (entries, true) =>
      match entries.getLast? with
      | none => .error (.Panic "page full implies at least one entry")
      | some last => .ok ⟨entries, some ⟨i, last.2.1⟩⟩
    | .ok (entries, false) => e.exportRanges limit rs none entries

/-- `MetaStore::export_page`. -/
def exportPage (e : Engine) (ranges : List KeyRange) (cursor : Option ExportCursor)
    (limit : ℕ) : Except Fault ExportPage :=
  match cursor with
  | some c => e.exportRanges limit (ranges.zipIdx.drop c.rangeIndex) (some c.afterKey) []
  | none => e.exportRanges limit ranges.zipIdx none []

end Engine

/-! ## Queries -/

inductive Query
  | Get (cf : MetaCf) (key : Bytes)
  | Scan (cf : MetaCf) (start stop : Bytes) (limit : ℕ)
  | Snapshot (ranges : List KeyRange)
  | ListObjects (bucket : BucketId) (pre : Bytes) (startAfter : Option Bytes) (limit : ℕ)
  | ExportPage (ranges : List KeyRange) (cursor : Option ExportCursor) (limit : ℕ)
  | ExportReferences (range : PartitionRange)

inductive Answer
  | Value (value : Option MetaValue)
  | Page (page : List (Bytes × MetaValue))
  | Entries (entries : List (MetaCf × Bytes × MetaValue))
  | Heads (heads : List (Bytes × ObjectHead))
  | Export (page : ExportPage)
  | Blobs (blobs : Finset UInt64)
deriving DecidableEq

def Query.ask (e : Engine) : Query → Except Fault Answer
  | .Get cf key => (e.get cf key).map .Value
  | .Scan cf start stop limit => (e.scan cf start stop limit).map .Page
  | .Snapshot ranges => (e.snapshot ranges).map .Entries
  | .ListObjects bucket pre startAfter limit => (e.list bucket pre startAfter limit).map .Heads
  | .ExportPage ranges cursor limit => (e.exportPage ranges cursor limit).map .Export
  | .ExportReferences range => (e.exportReferences range).map .Blobs

def MemEngine.after (batches : List (List StoreOp)) : MemEngine := batches.foldl apply new

def MetaStore.after (batches : List (List StoreOp)) : MetaStore :=
  batches.foldl KvStore.applyBatch KvStore.empty

/-- Some batch puts into the family. -/
def everPut (batches : List (List StoreOp)) (cf : MetaCf) : Bool :=
  batches.any fun ops => ops.any fun op => op.cf = cf && op.value.isSome

/-- The bounds are ordered, or the family was never put to. -/
def Sound (batches : List (List StoreOp)) (cf : MetaCf) (start stop : Bytes) : Prop :=
  start ≤ stop ∨ everPut batches cf = false

instance (batches : List (List StoreOp)) (cf : MetaCf) (start stop : Bytes) :
    Decidable (Sound batches cf start stop) := instDecidableOr

/-- The intervals an export still has ahead of it, the first one from where it resumes. -/
def ahead (ranges : List KeyRange) : Option ExportCursor → List KeyRange
  | none => ranges
  | some c =>
    match ranges.drop c.rangeIndex with
    | [] => []
    | r :: rs => { r with start := c.afterKey ++ [0] } :: rs

/-- How many entries a list of intervals holds. -/
def entriesIn (store : MetaStore) (ranges : List KeyRange) : ℕ :=
  (ranges.map fun r => ((store r.cf).range r.start r.stop).length).sum

/-- Every scan the query comes to has sound bounds.  An export comes to an interval when those
before it do not fill the page; it can only be asked for an empty page when nothing is ahead. -/
def Query.Bounded (batches : List (List StoreOp)) : Query → Prop
  | .Get _ _ => True
  | .Scan cf start stop _ => Sound batches cf start stop
  | .Snapshot ranges => ∀ r ∈ ranges, Sound batches r.cf r.start r.stop
  | .ListObjects bucket pre startAfter _ =>
    ∀ after ∈ startAfter,
      Sound batches .Meta (flatKey .Meta bucket after [] ++ [0]) (Engine.listEnd bucket pre)
  | .ExportPage ranges cursor limit =>
    (limit = 0 → ahead ranges cursor = [])
      ∧ ∀ before r rest, ahead ranges cursor = before ++ r :: rest →
        entriesIn (.after batches) before < limit → Sound batches r.cf r.start r.stop
  | .ExportReferences range =>
    ∀ r ∈ range.keyRanges, r.cf ≠ .Delq → r.cf ≠ .Ttl → Sound batches r.cf r.start r.stop

/-! ## What a family's map holds -/

section After

variable (batches : List (List StoreOp))

/-- The in-memory family holds what RocksDB's does, and has a root once something was put. -/
structure MemEngine.Mirrors (m : MemEngine) (store : MetaStore) (put : MetaCf → Bool) : Prop where
  entries : ∀ cf, (m.mapMut cf).entries = store cf
  rooted : ∀ cf, (m.mapMut cf).rooted = put cf

variable {store : MetaStore} {put : MetaCf → Bool} {start : Bytes} {e : Engine} {cf : MetaCf}
  {P : Bytes → Prop} {r : KeyRange} {n : ℕ}

lemma MemEngine.Mirrors.applyOp {m : MemEngine} (h : m.Mirrors store put) (op : StoreOp) :
    (m.applyOp op).Mirrors (store.applyOp op)
      fun cf => put cf || (op.cf = cf && op.value.isSome) := by
  refine ⟨fun cf => ?_, fun cf => ?_⟩ <;> by_cases hcf : cf = op.cf
  · subst hcf
    have hentries := h.entries op.cf
    cases hv : op.value <;>
      simp [MemEngine.applyOp, mapMut, KvStore.applyOp, hv, BTreeMap.insert, BTreeMap.remove,
        ← hentries]
  · have hentries := h.entries cf
    simpa [MemEngine.applyOp, mapMut, KvStore.applyOp, hcf, Ne.symm hcf] using hentries
  · subst hcf
    have hrooted := h.rooted op.cf
    cases hv : op.value <;>
      simp [MemEngine.applyOp, mapMut, hv, BTreeMap.insert, BTreeMap.remove, ← hrooted]
  · have hrooted := h.rooted cf
    simpa [MemEngine.applyOp, mapMut, hcf, Ne.symm hcf] using hrooted

lemma MemEngine.Mirrors.apply {m : MemEngine} (h : m.Mirrors store put) (ops : List StoreOp) :
    (m.apply ops).Mirrors (store.applyBatch ops)
      fun cf => put cf || ops.any fun op => op.cf = cf && op.value.isSome := by
  induction ops generalizing m store put with
  | nil => simpa [MemEngine.apply] using h
  | cons op ops ih =>
    simpa [MemEngine.apply, KvStore.applyBatch, Bool.or_assoc] using ih (h.applyOp op)

lemma MemEngine.after_mirrors :
    (MemEngine.after batches).Mirrors (MetaStore.after batches) (everPut batches) := by
  have hrun : ∀ (batches : List (List StoreOp)) {m : MemEngine} {store : MetaStore}
      {put : MetaCf → Bool}, m.Mirrors store put →
      (batches.foldl MemEngine.apply m).Mirrors (batches.foldl KvStore.applyBatch store)
        fun cf => put cf || everPut batches cf := by
    intro batches
    induction batches with
    | nil =>
      intro m store put h
      simpa [everPut] using h
    | cons ops batches ih =>
      intro m store put h
      simpa [everPut, Bool.or_assoc] using ih (h.apply ops)
  have hnew : MemEngine.new.Mirrors KvStore.empty fun _ => false := ⟨fun _ => rfl, fun _ => rfl⟩
  have hall := hrun batches hnew
  simp only [Bool.false_or] at hall
  exact hall

/-! ## Scans -/

lemma MemEngine.range_eq (cf : MetaCf) (start stop : Bytes) :
    (MemEngine.after batches).range cf start stop =
      if Sound batches cf start stop then .ok ((MetaStore.after batches cf).range start stop)
      else .error (.Panic "range start is greater than range end in BTreeMap") := by
  have hm := MemEngine.after_mirrors batches
  have hentries := hm.entries cf
  have hrooted := hm.rooted cf
  unfold MemEngine.range
  unfold MemEngine.mapMut at hentries hrooted
  cases hmap : (MemEngine.after batches).map cf with
  | none =>
    rw [hmap, Option.getD_none] at hentries hrooted
    have hsound : Sound batches cf start stop := Or.inr hrooted.symm
    simp [hsound, ← hentries, BTreeMap.empty, OrdMap.range, OrdMap.empty]
  | some map =>
    rw [hmap, Option.getD_some] at hentries hrooted
    have hiff : Sound batches cf start stop ↔ start ≤ stop ∨ map.rooted = false := by
      rw [Sound, hrooted]
    by_cases hsound : Sound batches cf start stop
    · simp [hsound, BTreeMap.range_of_ordered (hiff.mp hsound), hentries]
    · simp [hsound, BTreeMap.range_eq_none (mt hiff.mpr hsound)]

/-- **A scan panics on unsound bounds and otherwise returns what RocksDB's does.** -/
lemma MemEngine.scan_eq (cf : MetaCf) (start stop : Bytes) (limit : ℕ) :
    (MemEngine.after batches).scan cf start stop limit =
      if Sound batches cf start stop then .ok ((MetaStore.after batches).scan cf start stop limit)
      else .error (.Panic "range start is greater than range end in BTreeMap") := by
  rw [MemEngine.scan, MemEngine.range_eq, MetaStore.scan, OrdMap.scan_eq]
  split_ifs <;> rfl

/-- The answer is a result, and the same on both sides. -/
def Agree {α : Type} (mem rocks : Except Fault α) : Prop :=
  (∀ message, mem ≠ .error (.Panic message)) ∧ mem = rocks

lemma agree_map {α β : Type} {f : α → β} (hf : Function.Injective f) (x y : Except Fault α) :
    Agree (x.map f) (y.map f) ↔ Agree x y := by
  cases x <;> cases y <;> simp [Agree, Except.map, hf.eq_iff]

lemma agree_scan_iff (cf : MetaCf) (start stop : Bytes) (limit : ℕ) :
    Agree ((MemEngine.after batches).engine.scan cf start stop limit)
      ((MetaStore.after batches).engine.scan cf start stop limit)
        ↔ Sound batches cf start stop := by
  simp only [MemEngine.engine, MetaStore.engine, MemEngine.scan_eq]
  split_ifs with h <;> simp [Agree, h]

lemma agree_get (cf : MetaCf) (key : Bytes) :
    Agree ((MemEngine.after batches).engine.get cf key)
      ((MetaStore.after batches).engine.get cf key) := by
  have hentries := (MemEngine.after_mirrors batches).entries cf
  refine ⟨fun message h => (nomatch h), congrArg Except.ok ?_⟩
  unfold MemEngine.mapMut at hentries
  rw [MemEngine.get, MetaStore.get, ← hentries]
  cases (MemEngine.after batches).map cf <;> rfl

lemma agree_snapshot_iff (ranges : List KeyRange) :
    Agree ((MemEngine.after batches).engine.snapshot ranges)
      ((MetaStore.after batches).engine.snapshot ranges)
        ↔ ∀ r ∈ ranges, Sound batches r.cf r.start r.stop := by
  simp only [MemEngine.engine, MetaStore.engine, OrdMap.seek_eq_range]
  induction ranges with
  | nil => simp [MemEngine.snapshot, Agree]
  | cons r rs ih =>
    rw [MemEngine.snapshot, MemEngine.range_eq, List.forall_mem_cons, ← ih]
    by_cases hr : Sound batches r.cf r.start r.stop
    · simp only [hr, if_true, true_and, List.flatMap_cons]
      cases (MemEngine.after batches).snapshot rs <;>
        simp [Agree, bind, Except.bind, pure, Except.pure]
    · simp [hr, Agree, bind, Except.bind]

/-! ## Page loops -/

/-- From a cursor in `P` on, the engine's scans up to `stop` return the bindings of `m`, and the
position after any of them is in `P` again. -/
structure Engine.Serves (e : Engine) (cf : MetaCf) (stop : Bytes) (m : OrdMap Bytes MetaValue)
    (P : Bytes → Prop) : Prop where
  scan : ∀ start, P start → ∀ limit, e.scan cf start stop limit = .ok (m.scan start stop limit)
  next : ∀ key, key < stop → P (key ++ [0])

lemma MemEngine.serves (cf : MetaCf) (stop : Bytes) :
    (MemEngine.after batches).engine.Serves cf stop (MetaStore.after batches cf)
      fun start => Sound batches cf start stop where
  scan start h limit := by
    have hscan := MemEngine.scan_eq batches cf start stop limit
    rwa [if_pos h] at hscan
  next key h := Or.inl ((lt_iff_succ_le key stop).mp h)

lemma MetaStore.serves (store : MetaStore) (cf : MetaCf) (stop : Bytes) :
    store.engine.Serves cf stop (store cf) fun _ => True :=
  ⟨fun _ _ _ => rfl, fun _ _ => trivial⟩

variable {limit : ℕ} {m : OrdMap Bytes MetaValue} {stop : Bytes}

lemma last_lt_of_scan {last : Bytes × MetaValue}
    (h : (m.scan start stop limit).getLast? = some last) :
    last.1 < stop := by
  have hmem := List.mem_of_getLast? h
  rw [OrdMap.scan_eq] at hmem
  exact (OrdMap.mem_range.mp (List.mem_of_mem_take hmem)).2.2

lemma Engine.Serves.pages (h : e.Serves cf stop m P) (limit fuel : ℕ) (cursor : Bytes)
    (hP : P cursor) :
    e.pages cf stop limit fuel cursor
      = .ok (m.scanLoop (fun k => k ++ [0]) stop limit fuel cursor) := by
  induction fuel generalizing cursor with
  | zero => rfl
  | succ fuel ih =>
    rw [Engine.pages, h.scan cursor hP, OrdMap.scanLoop]
    cases hlast : (m.scan cursor stop limit).getLast? with
    | none => simp [hlast]
    | some last =>
      have hnext := ih _ (h.next last.1 (last_lt_of_scan hlast))
      simp [hlast, hnext, Except.map]

lemma MemEngine.pages_of_unsound (limit fuel : ℕ) (h : ¬ Sound batches cf start stop) :
    (MemEngine.after batches).engine.pages cf stop limit (fuel + 1) start
      = .error (.Panic "range start is greater than range end in BTreeMap") := by
  have hscan := MemEngine.scan_eq batches cf start stop limit
  rw [if_neg h] at hscan
  rw [Engine.pages]
  simp only [MemEngine.engine, hscan]

lemma MetaStore.walk_ok (store : MetaStore) (limit : ℕ) (ranges : List KeyRange) :
    ∃ entries, store.engine.walk limit ranges = .ok entries := by
  induction ranges with
  | nil => exact ⟨[], rfl⟩
  | cons r rs ih =>
    obtain ⟨rest, hrest⟩ := ih
    rw [Engine.walk, (store.serves r.cf r.stop).pages limit _ r.start trivial, hrest]
    exact ⟨_, rfl⟩

lemma MemEngine.walk_eq (limit : ℕ) (ranges : List KeyRange) :
    (MemEngine.after batches).engine.walk limit ranges =
      if ∀ r ∈ ranges, Sound batches r.cf r.start r.stop then
        (MetaStore.after batches).engine.walk limit ranges
      else .error (.Panic "range start is greater than range end in BTreeMap") := by
  induction ranges with
  | nil => rfl
  | cons r rs ih =>
    have hheld : (MemEngine.after batches).engine.held r.cf
        = (MetaStore.after batches).engine.held r.cf := by
      simp [MemEngine.engine, MetaStore.engine, (MemEngine.after_mirrors batches).entries]
    rw [Engine.walk, Engine.walk, ih, hheld]
    by_cases hr : Sound batches r.cf r.start r.stop
    · rw [(MemEngine.serves batches r.cf r.stop).pages limit _ r.start hr,
        ((MetaStore.after batches).serves r.cf r.stop).pages limit _ r.start trivial]
      simp only [List.forall_mem_cons, hr, true_and]
      split_ifs <;> rfl
    · rw [MemEngine.pages_of_unsound batches limit _ hr]
      simp [hr]

/-! ## Exports -/

/-- One interval contributes its bindings up to the page limit, and fills the page when they reach
it. -/
lemma Engine.Serves.exportRange (h : e.Serves r.cf r.stop m P) {fuel : ℕ} (start : Bytes)
    {entries : List (MetaCf × Bytes × MetaValue)} (hP : P start)
    (hfuel : limit - entries.length < fuel) :
    e.exportRange r limit fuel start entries
      = .ok (entries
            ++ ((m.range start r.stop).take (limit - entries.length)).map (fun x => (r.cf, x)),
          decide (limit ≤ entries.length + (m.range start r.stop).length)) := by
  induction fuel generalizing start entries with
  | zero => omega
  | succ fuel ih =>
    rw [Engine.exportRange]
    by_cases hfull : limit ≤ entries.length
    · have hzero : limit - entries.length = 0 := by omega
      have hreach : limit ≤ entries.length + (m.range start r.stop).length := by omega
      simp [hfull, hzero, hreach]
    · rw [if_neg hfull, h.scan start hP]
      simp only
      cases hlast : (m.scan start r.stop (limit - entries.length)).getLast? with
      | none =>
        rw [List.getLast?_eq_none_iff, OrdMap.scan_eq, List.take_eq_nil_iff] at hlast
        have hnil : m.range start r.stop = [] := hlast.resolve_left (by omega)
        simp [hnil, hfull]
      | some last =>
        have hnext := h.next last.1 (last_lt_of_scan hlast)
        rw [OrdMap.scan_eq] at hlast ⊢
        have hdrop := OrdMap.range_next_eq_drop lt_iff_succ_le hlast
        have hne : m.range start r.stop ≠ [] := by
          intro hnil
          simp [hnil] at hlast
        have hpos := List.length_pos_iff.mpr hne
        simp only
        rw [ih _ hnext, hdrop]
        · simp only [List.length_append, List.length_map, List.length_take, List.length_drop,
            List.append_assoc, Except.ok.injEq, Prod.mk.injEq, List.append_cancel_left_eq,
            decide_eq_decide]
          refine ⟨?_, by omega⟩
          -- a short page leaves nothing behind it, a full one no room
          have hrest : ((m.range start r.stop).drop (limit - entries.length)).take
              (limit - (entries.length
                + min (limit - entries.length) (m.range start r.stop).length)) = [] := by
            rw [List.take_eq_nil_iff, List.drop_eq_nil_iff]
            omega
          rw [hrest, List.map_nil, List.append_nil]
        · simp only [List.length_append, List.length_map, List.length_take]
          omega

/-- Only the family and the end of the interval matter once the start is given. -/
lemma Engine.exportRange_start (e : Engine) (r : KeyRange) (s : Bytes) (limit fuel : ℕ)
    (start : Bytes) (entries : List (MetaCf × Bytes × MetaValue)) :
    e.exportRange { r with start := s } limit fuel start entries
      = e.exportRange r limit fuel start entries := by
  induction fuel generalizing start entries with
  | zero => rfl
  | succ fuel ih =>
    rw [Engine.exportRange, Engine.exportRange]
    simp only [ih]

/-- What an export of `ranges` needs once `n` entries are collected. -/
def Exportable (limit n : ℕ) (ranges : List KeyRange) : Prop :=
  (n = 0 → limit = 0 → ranges = [])
    ∧ ∀ before r rest, ranges = before ++ r :: rest →
      n + entriesIn (.after batches) before < limit → Sound batches r.cf r.start r.stop

lemma exportable_cons {rs : List KeyRange} (hn : n < limit) :
    Exportable batches limit n (r :: rs)
      ↔ Sound batches r.cf r.start r.stop
        ∧ Exportable batches limit
          (n + ((MetaStore.after batches r.cf).range r.start r.stop).length) rs := by
  have hsum : ∀ before, entriesIn (.after batches) (r :: before)
      = ((MetaStore.after batches r.cf).range r.start r.stop).length
        + entriesIn (.after batches) before := fun before => by simp [entriesIn]
  constructor
  · rintro ⟨-, h⟩
    refine ⟨h [] r rs rfl (by simpa [entriesIn] using hn), by omega, fun before r' rest heq hlt => ?_⟩
    exact h (r :: before) r' rest (by rw [heq, List.cons_append]) (by rw [hsum]; omega)
  · rintro ⟨hr, -, h⟩
    refine ⟨by omega, fun before r' rest heq hlt => ?_⟩
    cases before with
    | nil =>
      rw [List.nil_append, List.cons.injEq] at heq
      rwa [← heq.1]
    | cons b before =>
      rw [List.cons_append, List.cons.injEq] at heq
      obtain ⟨rfl, heq⟩ := heq
      rw [hsum] at hlt
      exact h before r' rest heq (by omega)

lemma exportable_of_full {ranges : List KeyRange} (hn : limit ≤ n) :
    Exportable batches limit n ranges ↔ (n = 0 → ranges = []) := by
  constructor
  · exact fun h hzero => h.1 hzero (by omega)
  · exact fun h => ⟨fun hzero _ => h hzero, fun before r rest _ hlt => by omega⟩

lemma agree_exportRanges_iff (limit : ℕ) (ranges : List (KeyRange × ℕ))
    (entries : List (MetaCf × Bytes × MetaValue)) :
    Agree ((MemEngine.after batches).engine.exportRanges limit ranges none entries)
      ((MetaStore.after batches).engine.exportRanges limit ranges none entries)
        ↔ Exportable batches limit entries.length (ranges.map Prod.fst) := by
  induction ranges generalizing entries with
  | nil => simp [Engine.exportRanges, Agree, Exportable]
  | cons c ranges ih =>
    obtain ⟨r, i⟩ := c
    have hfuel : limit - entries.length < limit + 1 := by omega
    have hrocks := ((MetaStore.after batches).serves r.cf r.stop).exportRange r.start trivial hfuel
    rw [Engine.exportRanges, Engine.exportRanges, List.map_cons]
    by_cases hfull : limit ≤ entries.length
    · -- a full page ends the export without another scan
      rw [Engine.exportRange, Engine.exportRange, if_pos hfull, if_pos hfull,
        exportable_of_full batches hfull]
      cases hlast : entries.getLast? with
      | none =>
        rw [List.getLast?_eq_none_iff] at hlast
        simp [hlast, Agree]
      | some last =>
        have hne : entries ≠ [] := by
          intro hnil
          simp [hnil] at hlast
        simp [hlast, Agree, hne]
    · rw [exportable_cons batches (not_le.mp hfull), hrocks]
      by_cases hr : Sound batches r.cf r.start r.stop
      · have hmem := (MemEngine.serves batches r.cf r.stop).exportRange r.start hr hfuel
        rw [hmem]
        simp only [hr, true_and]
        set found := (MetaStore.after batches r.cf).range r.start r.stop with hfound
        by_cases hreach : limit ≤ entries.length + found.length
        · simp only [hreach, decide_true]
          have hne : entries ++ (found.take (limit - entries.length)).map (fun x => (r.cf, x)) ≠ []
              := by
            intro hnil
            have hlen := congrArg List.length hnil
            simp only [List.length_append, List.length_map, List.length_take,
              List.length_nil] at hlen
            omega
          rw [exportable_of_full batches hreach]
          cases hlast : (entries
              ++ (found.take (limit - entries.length)).map (fun x => (r.cf, x))).getLast? with
          | none => exact absurd (List.getLast?_eq_none_iff.mp hlast) hne
          | some last =>
            exact iff_of_true ⟨fun message h => (nomatch h), rfl⟩
              fun hzero => absurd hzero (by omega)
        · simp only [hreach, decide_false]
          have hshort : found.take (limit - entries.length) = found :=
            List.take_of_length_le (by omega)
          rw [ih, hshort, List.length_append, List.length_map]
      · have hscan := MemEngine.scan_eq batches r.cf r.start r.stop (limit - entries.length)
        rw [if_neg hr] at hscan
        rw [Engine.exportRange, if_neg hfull]
        simp [MemEngine.engine, hscan, hr, Agree]

/-- Resuming in an interval is starting in one that begins at the resume position. -/
lemma exportPage_eq (ranges : List KeyRange) (cursor : Option ExportCursor) (limit : ℕ) :
    ∃ rs : List (KeyRange × ℕ), rs.map Prod.fst = ahead ranges cursor
      ∧ ∀ e : Engine, e.exportPage ranges cursor limit = e.exportRanges limit rs none [] := by
  cases cursor with
  | none => exact ⟨ranges.zipIdx, by simp [ahead], fun e => rfl⟩
  | some c =>
    have hfst : (ranges.zipIdx.drop c.rangeIndex).map Prod.fst = ranges.drop c.rangeIndex := by
      rw [List.map_drop, List.zipIdx_map_fst]
    cases hrest : ranges.zipIdx.drop c.rangeIndex with
    | nil =>
      rw [hrest, List.map_nil] at hfst
      refine ⟨[], by simp [ahead, ← hfst], fun e => ?_⟩
      simp [Engine.exportPage, hrest, Engine.exportRanges]
    | cons x rs =>
      obtain ⟨r, i⟩ := x
      rw [hrest, List.map_cons] at hfst
      refine ⟨({ r with start := c.afterKey ++ [0] }, i) :: rs, by simp [ahead, ← hfst],
        fun e => ?_⟩
      rw [Engine.exportPage, hrest, Engine.exportRanges, Engine.exportRanges]
      simp only [Engine.exportRange_start]

lemma agree_exportPage_iff (ranges : List KeyRange) (cursor : Option ExportCursor) (limit : ℕ) :
    Agree ((MemEngine.after batches).engine.exportPage ranges cursor limit)
      ((MetaStore.after batches).engine.exportPage ranges cursor limit)
        ↔ (Query.ExportPage ranges cursor limit).Bounded batches := by
  obtain ⟨rs, hrs, hpage⟩ := exportPage_eq ranges cursor limit
  rw [hpage, hpage, agree_exportRanges_iff, hrs]
  simp [Exportable, Query.Bounded]

lemma agree_exportReferences_iff (range : PartitionRange) :
    Agree ((MemEngine.after batches).engine.exportReferences range)
      ((MetaStore.after batches).engine.exportReferences range)
        ↔ (Query.ExportReferences range).Bounded batches := by
  have hbounded : (Query.ExportReferences range).Bounded batches
      ↔ ∀ r ∈ range.keyRanges.filter fun r => r.cf ≠ .Delq ∧ r.cf ≠ .Ttl,
        Sound batches r.cf r.start r.stop := by
    simp [Query.Bounded]
  obtain ⟨entries, hentries⟩ := (MetaStore.after batches).walk_ok SCAN_PAGE
    (range.keyRanges.filter fun r => r.cf ≠ .Delq ∧ r.cf ≠ .Ttl)
  rw [hbounded, Engine.exportReferences, Engine.exportReferences, MemEngine.walk_eq, hentries]
  split_ifs with h
  · exact iff_of_true ⟨fun message herr => (nomatch herr), rfl⟩ h
  · simp only [h, iff_false]
    exact fun hagree => hagree.1 _ rfl

/-- A listing that starts at its prefix has ordered bounds. -/
lemma listStart_le (bucket : BucketId) (pre : Bytes) :
    Engine.listStart bucket pre none ≤ Engine.listEnd bucket pre := by
  obtain ⟨stop, hstop⟩ := prefixEnd_flatKey_isSome (show MetaCf.Meta ≠ .Applied by simp) bucket
    pre []
  rw [Engine.listStart, Engine.listEnd, hstop, Option.getD_some]
  exact ((prefixEnd_spec hstop _).mpr (List.prefix_refl _)).2.le

lemma agree_list_iff (bucket : BucketId) (pre : Bytes) (startAfter : Option Bytes) (limit : ℕ) :
    Agree ((MemEngine.after batches).engine.list bucket pre startAfter limit)
      ((MetaStore.after batches).engine.list bucket pre startAfter limit)
        ↔ (Query.ListObjects bucket pre startAfter limit).Bounded batches := by
  have hbounded : (Query.ListObjects bucket pre startAfter limit).Bounded batches
      ↔ Sound batches .Meta (Engine.listStart bucket pre startAfter)
        (Engine.listEnd bucket pre) := by
    cases startAfter with
    | none => exact iff_of_true (fun _ h => (nomatch h)) (Or.inl (listStart_le bucket pre))
    | some after => simp [Query.Bounded, Engine.listStart]
  rw [hbounded]
  simp only [Engine.list, MemEngine.engine, MetaStore.engine, MemEngine.scan_eq]
  split_ifs with h
  · simp only [h, iff_true]
    refine ⟨fun message herr => ?_, rfl⟩
    cases hdec : Engine.decodeHeads ((MetaStore.after batches).scan .Meta
      (Engine.listStart bucket pre startAfter) (Engine.listEnd bucket pre) limit) <;>
      simp [hdec, Except.mapError] at herr
  · simp [Agree, h]

/-- **The two engines agree on a query exactly when its scans are bounded.**  The in-memory engine
returns, and returns what RocksDB does, if and only if no scan the query comes to runs with its
start after its end over a family that was ever put to. -/
theorem engines_agree_iff (q : Query) :
    ((∀ message, q.ask (MemEngine.after batches).engine ≠ .error (.Panic message))
        ∧ q.ask (MemEngine.after batches).engine = q.ask (MetaStore.after batches).engine)
      ↔ q.Bounded batches := by
  have hsame : ∀ {α : Type} {f : α → Answer} {x y : Except Fault α} {p : Prop},
      Function.Injective f → (Agree x y ↔ p) → (Agree (x.map f) (y.map f) ↔ p) :=
    fun hf h => (agree_map hf _ _).trans h
  cases q with
  | Get cf key =>
    exact hsame (fun _ _ => Answer.Value.inj) (iff_of_true (agree_get batches cf key) trivial)
  | Scan cf start stop limit =>
    exact hsame (fun _ _ => Answer.Page.inj) (agree_scan_iff batches cf start stop limit)
  | Snapshot ranges =>
    exact hsame (fun _ _ => Answer.Entries.inj) (agree_snapshot_iff batches ranges)
  | ListObjects bucket pre startAfter limit =>
    exact hsame (fun _ _ => Answer.Heads.inj) (agree_list_iff batches bucket pre startAfter limit)
  | ExportPage ranges cursor limit =>
    exact hsame (fun _ _ => Answer.Export.inj) (agree_exportPage_iff batches ranges cursor limit)
  | ExportReferences range =>
    exact hsame (fun _ _ => Answer.Blobs.inj) (agree_exportReferences_iff batches range)

end After

/-- A listing whose `start_after` sorts after every key with the prefix, over a family that holds
one object. -/
def demoListing : Query := .ListObjects 1 [97] (some [98]) 10

def demoBatches : List (List StoreOp) :=
  [[WriteOp.put .Meta (Flat.headKey 1 [97]) (.Head demoHead)]]

/-- RocksDB returns an empty page, the in-memory engine panics. -/
theorem list_panics_in_memory :
    demoListing.ask (MetaStore.after demoBatches).engine = .ok (.Heads [])
      ∧ demoListing.ask (MemEngine.after demoBatches).engine
        = .error (.Panic "range start is greater than range end in BTreeMap") := by
  decide +kernel

end Epoch
