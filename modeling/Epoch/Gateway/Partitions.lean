import Epoch.Gateway.Paging

/-!
# Listing a bucket that is split over several MetaNodes

A page of a listing is asked of the leader of the one partition that holds the key it starts from,
and answered from everything that node stores.  A short page ends the listing, so what the other
nodes hold is not seen (`other_partition_is_missed`).

`routed_listing_iff`: the listing returns all objects exactly when each request of it is answered by a
node that hosts the objects it would return from the whole bucket.
-/

namespace Epoch.Gateway

/-- Which node leads a partition, and which partitions a node hosts. -/
structure Placement (layout : List PartitionRange) where
  leader : PartitionRange → UInt64
  hosts : UInt64 → List PartitionRange
  leader_hosts : ∀ p ∈ layout, p ∈ hosts (leader p)
  hosts_subset : ∀ node, ∀ p ∈ hosts node, p ∈ layout

inductive ListError
  | NoRoute
  | Node (fault : Fault)
deriving DecidableEq

/-- A node's store holds the keys of the partitions it hosts. -/
def nodeStore (store : MetaStore) (hosted : List PartitionRange) : MetaStore :=
  fun cf => (store cf).filter fun e => hosted.any (·.contains e.1)

/-- The key that a page is routed by. -/
def routeKey (pre startAfter : Bytes) : Bytes := if startAfter = [] then pre else startAfter

def routeFlat (layout : List PartitionRange) (bucket : BucketId) (key : Bytes) :
    Option PartitionRange :=
  layout.find? fun p => p.ns = .Flat && p.containsCoord bucket key

/-- `MetaClient::list_objects`: the leader of the partition answers. -/
def routedList (store : MetaStore) {layout : List PartitionRange} (placement : Placement layout)
    (bucket : BucketId) (pre startAfter : Bytes) (limit : ℕ) :
    Except ListError (List (Bytes × ObjectHead)) :=
  match routeFlat layout bucket (routeKey pre startAfter) with
  | none => .error .NoRoute
  | some p =>
    (serveList (nodeStore store (placement.hosts (placement.leader p))) bucket pre startAfter
      limit).mapError .Node

/-- The listing of one node with everything. -/
def wholeList (store : MetaStore) (bucket : BucketId) (pre startAfter : Bytes) (limit : ℕ) :
    Except ListError (List (Bytes × ObjectHead)) :=
  (serveList store bucket pre startAfter limit).mapError .Node

/-! ## The requests of a listing -/

section Asked

variable {H ε : Type*}

/-- The cursors that a page asks for. -/
def askedLoop (listObjects : Bytes → Bytes → ℕ → Except ε (List (Bytes × H)))
    (pre delimiter : Bytes) (limit : ℕ) : ℕ → Bytes → List (ListRow H) → List Bytes
  | 0, _, _ => []
  | n + 1, cursor, rows =>
    cursor :: match listObjects pre cursor limit with
      | .error _ => []
      | .ok entries =>
        let batch := foldBatch pre delimiter (limit - rows.length) entries
        if entries = [] ∨ limit ≤ (rows ++ batch.1).length ∨ entries.length < limit then []
        else askedLoop listObjects pre delimiter limit n batch.2 (rows ++ batch.1)

/-- The cursors that the first `n` pages ask for. -/
def asked (listObjects : Bytes → Bytes → ℕ → Except ε (List (Bytes × H)))
    (pre delimiter : Bytes) (maxKeys : Option ℤ) : ℕ → Bytes → List Bytes
  | 0, _ => []
  | n + 1, cursor =>
    askedLoop listObjects pre delimiter (pageLimit maxKeys) MAX_BATCHES cursor []
      ++ match listObjectsV2 listObjects pre delimiter maxKeys (some cursor) with
        | .ok (_, some token) => asked listObjects pre delimiter maxKeys n token
        | _ => []

variable {f g : Bytes → Bytes → ℕ → Except ε (List (Bytes × H))} {pre delimiter : Bytes}

lemma listFlatLoop_congr {limit n : ℕ} {cursor : Bytes} {rows : List (ListRow H)}
    (h : ∀ c ∈ askedLoop f pre delimiter limit n cursor rows, f pre c limit = g pre c limit) :
    listFlatLoop g pre delimiter limit n cursor rows
      = listFlatLoop f pre delimiter limit n cursor rows := by
  induction n generalizing cursor rows with
  | zero => rfl
  | succ n ih =>
    rw [askedLoop] at h
    rw [listFlatLoop, listFlatLoop, ← h cursor List.mem_cons_self]
    cases hpage : f pre cursor limit with
    | error err => rfl
    | ok entries =>
      simp only [hpage] at h ⊢
      split_ifs with hnil hfull hshort
      · rfl
      · rfl
      · rfl
      · refine ih fun c hc => h c (List.mem_cons_of_mem _ ?_)
        rw [if_neg (by tauto)]
        exact hc

/-- A listing depends only on the answers to its requests. -/
lemma follow_congr {maxKeys : Option ℤ} {cursor : Bytes}
    (h : ∀ n, ∀ c ∈ asked f pre delimiter maxKeys n cursor,
      f pre c (pageLimit maxKeys) = g pre c (pageLimit maxKeys)) (n : ℕ) :
    follow g pre delimiter maxKeys n (some cursor) = follow f pre delimiter maxKeys n (some cursor) := by
  induction n generalizing cursor with
  | zero => rfl
  | succ n ih =>
    have hpage : listObjectsV2 g pre delimiter maxKeys (some cursor)
        = listObjectsV2 f pre delimiter maxKeys (some cursor) := by
      unfold listObjectsV2 listFlat
      rw [Option.getD_some, listFlatLoop_congr fun c hc => h 1 c (List.mem_append_left _ hc)]
    rw [follow, follow, hpage]
    cases hrows : listObjectsV2 f pre delimiter maxKeys (some cursor) with
    | error err => rfl
    | ok page =>
      obtain ⟨rows, token⟩ := page
      cases token with
      | none => rfl
      | some t =>
        simp only
        rw [ih]
        intro m c hc
        refine h (m + 1) c ?_
        rw [asked, hrows]
        exact List.mem_append_right _ hc

end Asked

/-! ## What a node answers -/

section Hosted

variable {store : MetaStore} {bucket : BucketId} {layout : List PartitionRange} {pre : Bytes}

/-- A node with these partitions has the object. -/
def HostsKey (hosted : List PartitionRange) (bucket : BucketId) (key : Bytes) : Prop :=
  ∃ p ∈ hosted, p.ns = .Flat ∧ p.containsCoord bucket key = true

instance (hosted : List PartitionRange) (bucket : BucketId) (key : Bytes) :
    Decidable (HostsKey hosted bucket key) := inferInstanceAs (Decidable (∃ p ∈ hosted, _))

/-- The condition on a request: the node that answers it hosts the next `limit` objects of the
bucket, or all that are left. -/
def Hosted (store : MetaStore) (placement : Placement layout) (bucket : BucketId) (pre : Bytes)
    (limit : ℕ) (cursor : Bytes) : Prop :=
  ∀ p ∈ routeFlat layout bucket (routeKey pre cursor),
    ∀ e ∈ (after (objectsOf store bucket) pre cursor).take limit,
      HostsKey (placement.hosts (placement.leader p)) bucket e.1

lemma objectsOf_nodeStore (store : MetaStore) (bucket : BucketId) (hosted : List PartitionRange) :
    objectsOf (nodeStore store hosted) bucket
      = (objectsOf store bucket).filter fun e => HostsKey hosted bucket e.1 := by
  rw [objectsOf, objectsOf, List.filter_filterMap]
  show ((store .Meta).toList.filter _).filterMap _ = _
  rw [List.filterMap_filter]
  refine List.filterMap_congr fun e _ => ?_
  by_cases hbucket : flatKey .Meta bucket [] [] <+: e.1
  · obtain ⟨key, hkey, -⟩ := exists_flatKey hbucket
    have hany : hosted.any (·.contains e.1) = decide (HostsKey hosted bucket (e.1.drop 9)) := by
      rw [hkey, drop_flatKey, Bool.eq_iff_iff, List.any_eq_true, decide_eq_true_eq]
      refine exists_congr fun p => and_congr_right fun _ => ?_
      rw [PartitionRange.contains_flatKey (by decide), List.append_nil, Bool.and_eq_true]
      refine and_congr_left fun _ => ?_
      unfold PartitionRange.ownsCf PartitionRange.exportedCfs
      cases p.ns <;> decide
    cases e.2.head? with
    | none => simp [hbucket]
    | some head =>
      simp only [hany, if_pos hbucket]
      by_cases hhost : HostsKey hosted bucket (e.1.drop 9)
      · simp [Option.filter, hhost]
      · simp [Option.filter, hhost]
  · simp [hbucket]

lemma holdsHeads_nodeStore (h : HoldsHeads store bucket) (hosted : List PartitionRange) :
    HoldsHeads (nodeStore store hosted) bucket :=
  fun e he hbucket => h e (List.mem_of_mem_filter he) hbucket

/-- A partition of the layout holds every flat key. -/
lemma exists_routeFlat (h : Cover layout) (bucket : BucketId) (key : Bytes) :
    ∃ p, routeFlat layout bucket key = some p := by
  have hex : ∃ p ∈ layout, p.ns = .Flat ∧ p.containsCoord bucket key = true := by
    induction h with
    | full => exact ⟨.full .Flat, by simp, rfl, rfl⟩
    | split rs at_ _ hsplit ih =>
      obtain ⟨p, hp, hns, hcoord⟩ := ih
      rcases List.mem_append.mp hp with hp | hp
      · exact ⟨p, List.mem_append_left _ hp, hns, hcoord⟩
      rcases List.mem_cons.mp hp with rfl | hp
      · obtain ⟨hleft, hright⟩ := PartitionRange.split_ns hsplit
        have hhalves := PartitionRange.split_containsCoord hsplit bucket key
        rcases lt_or_ge (toLex (bucket, key)) (toLex at_) with hlt | hge
        · exact ⟨_, by simp, hleft.trans hns, hhalves.1.mpr ⟨hcoord, hlt⟩⟩
        · exact ⟨_, by simp, hright.trans hns, hhalves.2.mpr ⟨hcoord, hge⟩⟩
      · exact ⟨p, by simp [hp], hns, hcoord⟩
  obtain ⟨p, hp, hns, hcoord⟩ := hex
  refine Option.isSome_iff_exists.mp (List.find?_isSome.mpr ⟨p, hp, ?_⟩)
  simp [hns, hcoord]

variable {cursor : Bytes}

/-- The objects that the node asked for a page has after the cursor. -/
lemma routedList_eq (hcover : Cover layout) (hheads : HoldsHeads store bucket)
    (hutf : ∀ e ∈ objectsOf store bucket, IsUtf8 e.1) (hpre : IsUtf8 pre)
    (placement : Placement layout) (maxKeys : Option ℤ) (hcursor : cursor = [] ∨ pre ≤ cursor) :
    ∃ p, routeFlat layout bucket (routeKey pre cursor) = some p
      ∧ routedList store placement bucket pre cursor (pageLimit maxKeys)
        = .ok (((after (objectsOf store bucket) pre cursor).filter
          fun e => HostsKey (placement.hosts (placement.leader p)) bucket e.1).take
            (pageLimit maxKeys)) := by
  obtain ⟨p, hp⟩ := exists_routeFlat hcover bucket (routeKey pre cursor)
  refine ⟨p, hp, ?_⟩
  have hlisted := listed_serveList
    (holdsHeads_nodeStore hheads (placement.hosts (placement.leader p)))
    (fun e he => hutf e (by
      rw [objectsOf_nodeStore] at he
      exact List.mem_of_mem_filter he)) hpre (show IsUtf8 [] by decide) maxKeys
  have hswap : after ((objectsOf store bucket).filter
      fun e => HostsKey (placement.hosts (placement.leader p)) bucket e.1) pre cursor
        = (after (objectsOf store bucket) pre cursor).filter
          fun e => HostsKey (placement.hosts (placement.leader p)) bucket e.1 := by
    simp only [after, under, List.filter_filter]
    refine List.filter_congr fun e _ => ?_
    rw [← Bool.and_assoc, Bool.and_comm]
  rw [routedList, hp]
  simp only
  rw [hlisted.pages cursor hcursor, objectsOf_nodeStore, hswap]
  rfl

lemma wholeList_eq (hheads : HoldsHeads store bucket)
    (hutf : ∀ e ∈ objectsOf store bucket, IsUtf8 e.1) (hpre : IsUtf8 pre) (maxKeys : Option ℤ)
    (hcursor : cursor = [] ∨ pre ≤ cursor) :
    wholeList store bucket pre cursor (pageLimit maxKeys)
      = .ok ((after (objectsOf store bucket) pre cursor).take (pageLimit maxKeys)) := by
  have hlisted := listed_serveList hheads hutf hpre (show IsUtf8 [] by decide) maxKeys
  rw [wholeList, hlisted.pages cursor hcursor]
  rfl

/-- A request gets the page of the whole bucket exactly when the node hosts that page. -/
lemma routedList_eq_wholeList_iff (hcover : Cover layout) (hheads : HoldsHeads store bucket)
    (hutf : ∀ e ∈ objectsOf store bucket, IsUtf8 e.1) (hpre : IsUtf8 pre)
    (placement : Placement layout) (maxKeys : Option ℤ) (hcursor : cursor = [] ∨ pre ≤ cursor) :
    wholeList store bucket pre cursor (pageLimit maxKeys)
        = routedList store placement bucket pre cursor (pageLimit maxKeys)
      ↔ Hosted store placement bucket pre (pageLimit maxKeys) cursor := by
  obtain ⟨p, hp, hpage⟩ := routedList_eq hcover hheads hutf hpre placement maxKeys hcursor
  rw [hpage, wholeList_eq hheads hutf hpre maxKeys hcursor, Except.ok.injEq,
    eq_comm (a := List.take _ _), take_filter_eq_iff, Hosted, hp]
  simp

end Hosted

/-! ## Listings without a delimiter -/

section Plain

variable {H ε : Type*} {f : Bytes → Bytes → ℕ → Except ε (List (Bytes × H))} {pre cursor : Bytes}
  {maxKeys : Option ℤ} {entries : List (Bytes × H)}

lemma pageLimit_pos (maxKeys : Option ℤ) : 0 < pageLimit maxKeys := by
  unfold pageLimit
  omega

lemma blocks_nil_delimiter [DecidableEq H] (hsorted : entries.Pairwise fun a b => a.1 < b.1) :
    blocks (entries.map (listRow pre [])) = entries.map .Object := by
  have hrow : ∀ e : Bytes × H, listRow pre [] e = .Object e := fun e => by
    rw [listRow, rowOf, find_nil]
  rw [List.map_congr_left fun e _ => hrow e]
  refine List.destutter_of_isChain _ _ (List.Pairwise.isChain ?_)
  refine List.pairwise_map.mpr (hsorted.imp fun hlt heq => hlt.ne ?_)
  exact congrArg Prod.fst (ListRow.Object.inj heq)

lemma foldBatch_nil [DecidableEq H] (hpre : ∀ e ∈ entries, pre <+: e.1)
    (hsorted : entries.Pairwise fun a b => a.1 < b.1) {limit : ℕ} (hlimit : 0 < limit)
    (hlen : entries.length ≤ limit) :
    foldBatch pre [] limit entries
      = (entries.map .Object, (entries.getLast?.map Prod.fst).getD []) := by
  refine Prod.ext ?_ ?_
  · rw [foldBatch_rows [] hpre hsorted hlimit, blocks_nil_delimiter hsorted,
      List.take_of_length_le (by rwa [List.length_map])]
  · unfold foldBatch fold
    simp only [if_true, List.length_map, if_neg (not_lt.mpr hlen), Option.getD_none,
      List.getLast?_map]

/-- A page of a listing without a delimiter is the batch, and a full one is followed by another. -/
lemma listObjectsV2_nil [DecidableEq H] (hpage : f pre cursor (pageLimit maxKeys) = .ok entries)
    (hpre : ∀ e ∈ entries, pre <+: e.1) (hsorted : entries.Pairwise fun a b => a.1 < b.1)
    (hutf : ∀ e ∈ entries, IsUtf8 e.1) (hlen : entries.length ≤ pageLimit maxKeys) :
    listObjectsV2 f pre [] maxKeys (some cursor)
        = .ok (entries.map .Object,
          if entries.length = pageLimit maxKeys then entries.getLast?.map Prod.fst else none)
      ∧ askedLoop f pre [] (pageLimit maxKeys) MAX_BATCHES cursor [] = [cursor] := by
  have hpos := pageLimit_pos maxKeys
  have hbatch := foldBatch_nil hpre hsorted hpos hlen
  refine ⟨?_, ?_⟩
  · rw [listObjectsV2, listFlat, MAX_BATCHES, listFlatLoop, Option.getD_some, hpage]
    simp only [List.length_nil, Nat.sub_zero, hbatch, List.nil_append, List.length_map]
    by_cases hnil : entries = []
    · subst hnil
      rw [if_pos rfl, List.length_nil, if_neg hpos.ne]
      rfl
    rw [if_neg hnil]
    by_cases hfull : entries.length = pageLimit maxKeys
    · obtain ⟨last, hlast⟩ := Option.isSome_iff_exists.mp (List.getLast?_isSome.mpr hnil)
      rw [if_pos hfull.ge, if_pos hfull, hlast]
      show Except.ok (_, some (fromUtf8Lossy last.1)) = _
      rw [fromUtf8Lossy_of_isUtf8 (hutf last (List.mem_of_getLast? hlast))]
      rfl
    · rw [if_neg (by omega), if_pos (by omega), if_neg hfull]
      rfl
  · rw [MAX_BATCHES, askedLoop, hpage]
    simp only [List.length_nil, Nat.sub_zero, hbatch, List.nil_append, List.length_map]
    rw [if_pos (by omega)]

/-- What is left after a full page. -/
lemma after_last {objects : List (Bytes × H)} (hsorted : objects.Pairwise fun a b => a.1 < b.1)
    {limit : ℕ} {last : Bytes × H}
    (hlast : ((after objects pre cursor).take limit).getLast? = some last) (hne : last.1 ≠ []) :
    after objects pre last.1 = (after objects pre cursor).drop limit := by
  have hmem := List.mem_of_mem_take (List.mem_of_getLast? hlast)
  have hfrom : after objects pre last.1
      = (after objects pre cursor).filter fun e => last.1 < e.1 := by
    rw [after, after, List.filter_filter]
    refine List.filter_congr fun e _ => ?_
    have hcursor := (mem_after.mp hmem).2
    by_cases hlt : last.1 < e.1
    · have hafter : cursor = [] ∨ cursor < e.1 := hcursor.imp_right fun h => h.trans hlt
      simp [hlt, hafter]
    · simp [hlt, hne]
  rw [hfrom, OrdMap.filter_lt_eq_drop (pairwise_after hsorted pre cursor) hlast]

/-- A listing without a delimiter is exact, unless its first page is the empty key alone, which does
not serve as a token. -/
lemma follow_nil [DecidableEq H] {objects : List (Bytes × H)}
    (h : Listed f objects pre [] (pageLimit maxKeys))
    (hempty : pageLimit maxKeys = 1 → ∀ e ∈ under objects pre, e.1 ≠ []) (m : ℕ)
    (hcursor : cursor = [] ∨ pre ≤ cursor) (hlen : (after objects pre cursor).length < m) :
    follow f pre [] maxKeys m (some cursor)
      = .ok (some ((after objects pre cursor).map .Object)) := by
  induction m generalizing cursor with
  | zero => omega
  | succ m ih =>
    have hsub := fun e (he : e ∈ (after objects pre cursor).take (pageLimit maxKeys)) =>
      mem_under.mp (mem_after.mp (List.mem_of_mem_take he)).1
    have hsorted := (pairwise_after h.sorted pre cursor).sublist
      (List.take_sublist (pageLimit maxKeys) _)
    have hpage := (listObjectsV2_nil (h.pages cursor hcursor) (fun e he => (hsub e he).2) hsorted
      (fun e he => h.utf8 e (hsub e he).1) (List.length_take_le _ _)).1
    rw [follow, hpage]
    by_cases hfull : ((after objects pre cursor).take (pageLimit maxKeys)).length
        = pageLimit maxKeys
    · have hne : (after objects pre cursor).take (pageLimit maxKeys) ≠ [] := by
        intro hnil
        rw [hnil, List.length_nil] at hfull
        exact absurd hfull h.limit_pos.ne
      obtain ⟨last, hlast⟩ := Option.isSome_iff_exists.mp (List.getLast?_isSome.mpr hne)
      have hmem := hsub last (List.mem_of_getLast? hlast)
      have hkey : last.1 ≠ [] := by
        intro hnil
        obtain ⟨init, hinit⟩ := List.getLast?_eq_some_iff.mp hlast
        have hone : init = [] := by
          rw [List.eq_nil_iff_forall_not_mem]
          intro e he
          rw [hinit, List.pairwise_append] at hsorted
          have hlt := hsorted.2.2 e he last List.mem_cons_self
          rw [hnil] at hlt
          exact List.not_lt_nil _ hlt
        rw [hinit, hone, List.nil_append, List.length_singleton] at hfull
        exact hempty hfull.symm last (mem_under.mpr hmem) hnil
      have hrest := after_last h.sorted hlast hkey
      have hsize : (after objects pre last.1).length < m := by
        have hpos := h.limit_pos
        rw [List.length_take] at hfull
        rw [hrest, List.length_drop]
        omega
      rw [if_pos hfull, hlast]
      simp only [Option.map_some]
      rw [ih (Or.inr (prefix_le hmem.2)) hsize, hrest]
      show Except.ok (some (_ ++ _)) = _
      rw [← List.map_append, List.take_append_drop]
    · rw [if_neg hfull]
      simp only
      rw [List.length_take] at hfull
      rw [List.take_of_length_le (by omega)]

end Plain

section Routed

variable {store : MetaStore} {bucket : BucketId} {layout : List PartitionRange}
  {pre cursor delimiter : Bytes} {placement : Placement layout} {maxKeys : Option ℤ}

lemma listed_wholeList (hheads : HoldsHeads store bucket)
    (hutf : ∀ e ∈ objectsOf store bucket, IsUtf8 e.1) (hpre : IsUtf8 pre)
    (hdel : IsUtf8 delimiter) (maxKeys : Option ℤ) :
    Listed (wholeList store bucket) (objectsOf store bucket) pre delimiter (pageLimit maxKeys) :=
  ⟨pairwise_objectsOf store bucket, hutf, hpre, hdel, pageLimit_pos maxKeys,
    fun _ hcursor => wholeList_eq hheads hutf hpre maxKeys hcursor⟩

/-- The entries that a listing without a delimiter gets first are the first it returns. -/
lemma prefix_of_follow {entries : List (Bytes × ObjectHead)} {m : ℕ} {cursor : Bytes}
    {out : List (ListRow ObjectHead)} {token : Option Bytes}
    (hpage : listObjectsV2 (routedList store placement bucket) pre [] maxKeys (some cursor)
      = .ok (entries.map .Object, token))
    (hfollow : follow (routedList store placement bucket) pre [] maxKeys m (some cursor)
      = .ok (some out)) :
    ∃ later, out = entries.map .Object ++ later ∧ (token = none → later = [])
      ∧ ∀ t, token = some t → ∃ m', m = m' + 1
        ∧ follow (routedList store placement bucket) pre [] maxKeys m' (some t)
          = .ok (some later) := by
  cases m with
  | zero => exact absurd hfollow (by simp [follow])
  | succ m =>
    rw [follow, hpage] at hfollow
    cases token with
    | none =>
      refine ⟨[], ?_, fun _ => rfl, by simp⟩
      rw [List.append_nil]
      simpa using hfollow.symm
    | some t =>
      simp only at hfollow
      cases hlater : follow (routedList store placement bucket) pre [] maxKeys m (some t) with
      | error err =>
        rw [hlater] at hfollow
        exact absurd hfollow (by simp [Except.map])
      | ok rest =>
        cases rest with
        | none =>
          rw [hlater] at hfollow
          exact absurd hfollow (by simp [Except.map])
        | some later =>
          rw [hlater] at hfollow
          refine ⟨later, ?_, by simp, ?_⟩
          · simpa [Except.map] using hfollow.symm
          · rintro t' ⟨⟩
            exact ⟨m, rfl, hlater⟩

/-- A listing without a delimiter that returns everything was answered by nodes that host what they
were asked for. -/
lemma hosted_of_follow (hcover : Cover layout) (hheads : HoldsHeads store bucket)
    (hutf : ∀ e ∈ objectsOf store bucket, IsUtf8 e.1) (hpre : IsUtf8 pre) (m : ℕ)
    {cursor : Bytes} (hcursor : cursor = [] ∨ pre ≤ cursor)
    (hfollow : follow (routedList store placement bucket) pre [] maxKeys m (some cursor)
      = .ok (some ((after (objectsOf store bucket) pre cursor).map .Object))) :
    (∀ n, ∀ c ∈ asked (wholeList store bucket) pre [] maxKeys n cursor,
        Hosted store placement bucket pre (pageLimit maxKeys) c)
      ∧ (cursor = [] → pageLimit maxKeys = 1 →
        ∀ e ∈ under (objectsOf store bucket) pre, e.1 ≠ []) := by
  induction m generalizing cursor with
  | zero => exact absurd hfollow (by simp [follow])
  | succ m ih =>
    obtain ⟨objects, hobjects⟩ : ∃ objects, objects = objectsOf store bucket := ⟨_, rfl⟩
    have hsorted : objects.Pairwise fun a b => a.1 < b.1 :=
      hobjects ▸ pairwise_objectsOf store bucket
    have hsub : ∀ e ∈ after objects pre cursor, e ∈ objects ∧ pre <+: e.1 :=
      fun e he => mem_under.mp (mem_after.mp he).1
    obtain ⟨p, hp, hrouted⟩ := routedList_eq hcover hheads hutf hpre placement maxKeys hcursor
    have hwhole := wholeList_eq hheads hutf hpre maxKeys hcursor
    have hiff := routedList_eq_wholeList_iff hcover hheads hutf hpre placement maxKeys hcursor
    rw [← hobjects] at hrouted hwhole hutf hfollow ⊢
    obtain ⟨entries, hentries⟩ : ∃ entries, entries = ((after objects pre cursor).filter
      fun e => HostsKey (placement.hosts (placement.leader p)) bucket e.1).take
        (pageLimit maxKeys) := ⟨_, rfl⟩
    rw [← hentries] at hrouted
    have hsublist : entries.Sublist (after objects pre cursor) := by
      rw [hentries]
      exact (List.take_sublist _ _).trans List.filter_sublist
    have hlen : entries.length ≤ pageLimit maxKeys := hentries ▸ List.length_take_le _ _
    have hpage := (listObjectsV2_nil hrouted (fun e he => (hsub e (hsublist.subset he)).2)
      ((pairwise_after hsorted pre cursor).sublist hsublist)
      (fun e he => hutf e (hsub e (hsublist.subset he)).1) hlen).1
    obtain ⟨later, hout, hnone, hsome⟩ := prefix_of_follow hpage hfollow
    -- the page is the head of what is left
    obtain ⟨head, rest, hsplit, hhead, hrest⟩ := List.map_eq_append_iff.mp hout
    have hheadeq : head = entries :=
      List.map_injective_iff.mpr (fun a b => ListRow.Object.inj) hhead
    rw [hheadeq] at hsplit
    have hfirst : (after objects pre cursor).take (pageLimit maxKeys) = entries := by
      by_cases hfull : entries.length = pageLimit maxKeys
      · rw [hsplit, ← hfull, List.take_left]
      · rw [if_neg hfull] at hnone
        have hnil : rest = [] := by simpa [hnone rfl] using hrest
        rw [hsplit, hnil, List.append_nil]
        exact List.take_of_length_le hlen
    have hhosted : Hosted store placement bucket pre (pageLimit maxKeys) cursor := by
      rw [← hiff, hwhole, hrouted, hfirst]
    rw [hfirst] at hwhole
    obtain ⟨hpage', hasked⟩ := listObjectsV2_nil hwhole
      (fun e he => (hsub e (hsublist.subset he)).2)
      ((pairwise_after hsorted pre cursor).sublist hsublist)
      (fun e he => hutf e (hsub e (hsublist.subset he)).1) hlen
    by_cases hfull : entries.length = pageLimit maxKeys
    · have hne : entries ≠ [] := by
        rintro rfl
        exact absurd hfull (pageLimit_pos maxKeys).ne
      obtain ⟨last, hlast⟩ := Option.isSome_iff_exists.mp (List.getLast?_isSome.mpr hne)
      have hmem := List.mem_of_getLast? hlast
      rw [if_pos hfull, hlast, Option.map_some] at hsome hpage'
      obtain ⟨m', hm, hnext⟩ := hsome last.1 rfl
      obtain rfl : m = m' := Nat.succ.inj hm
      have hpair := pairwise_after hsorted pre cursor
      rw [hsplit, List.pairwise_append] at hpair
      have hkey : last.1 ≠ [] := by
        intro hnil
        -- the empty token starts the listing again, with the same page
        have hstart : cursor = [] := by
          refine (mem_after.mp (hsublist.subset hmem)).2.resolve_right ?_
          rw [hnil]
          exact List.not_lt_nil _
        have hrestart := congrArg (fun t => follow (routedList store placement bucket) pre []
          maxKeys m (some t)) (hstart.trans hnil.symm)
        obtain ⟨again, hagain, -⟩ := prefix_of_follow hpage (hrestart.trans hnext)
        have hin : ListRow.Object last ∈ rest.map ListRow.Object := by
          rw [hrest, hagain]
          exact List.mem_append_left _ (List.mem_map_of_mem hmem)
        obtain ⟨e, he, heq⟩ := List.mem_map.mp hin
        exact absurd (congrArg Prod.fst (ListRow.Object.inj heq)).symm
          (hpair.2.2 last hmem e he).ne
      have hrest' : after objects pre last.1 = rest := by
        rw [after_last hsorted (hfirst.symm ▸ hlast) hkey, hsplit, ← hfull, List.drop_left]
      rw [← hrest, ← hrest', hobjects] at hnext
      obtain ⟨hlater, -⟩ := ih (Or.inr (prefix_le (hsub last (hsublist.subset hmem)).2)) hnext
      refine ⟨fun n c hc => ?_, fun hnil hone e he => ?_⟩
      · cases n with
        | zero => exact absurd hc List.not_mem_nil
        | succ n =>
          rw [asked, hasked, hpage'] at hc
          rcases List.mem_append.mp hc with hc | hc
          · rw [List.mem_singleton.mp hc]
            exact hhosted
          · exact hlater n c hc
      · rw [← after_nil, ← hnil, hsplit] at he
        rcases List.mem_append.mp he with he | he
        · rw [hone, List.length_eq_one_iff] at hfull
          obtain ⟨x, rfl⟩ := hfull
          rw [List.mem_singleton.mp he, ← List.mem_singleton.mp hmem]
          exact hkey
        · intro hnil'
          have hlt := hpair.2.2 last hmem e he
          rw [hnil'] at hlt
          exact List.not_lt_nil _ hlt
    · rw [if_neg hfull] at hpage' hnone
      have hnil : rest = [] := by simpa [hnone rfl] using hrest
      refine ⟨fun n c hc => ?_, fun hstart hone e he => ?_⟩
      · cases n with
        | zero => exact absurd hc List.not_mem_nil
        | succ n =>
          rw [asked, hasked, hpage', List.append_nil] at hc
          rw [List.mem_singleton.mp hc]
          exact hhosted
      · have hempty : entries = [] := List.length_eq_zero_iff.mp (by omega)
        rw [← after_nil, ← hstart, hsplit, hempty, hnil] at he
        exact absurd he List.not_mem_nil

/-- The cursors of a page are empty or at or after the prefix. -/
lemma askedLoop_bounds {H ε : Type*} [DecidableEq H]
    {f : Bytes → Bytes → ℕ → Except ε (List (Bytes × H))} {objects : List (Bytes × H)} {limit : ℕ}
    (h : Listed f objects pre delimiter limit) (n : ℕ) (hcursor : cursor = [] ∨ pre ≤ cursor)
    {rows : List (ListRow H)} (hroom : rows.length < limit) :
    ∀ c ∈ askedLoop f pre delimiter limit n cursor rows, c = [] ∨ pre ≤ c := by
  induction n generalizing cursor rows with
  | zero => simp [askedLoop]
  | succ n ih =>
    intro c hc
    rw [askedLoop, h.pages cursor hcursor] at hc
    rcases List.mem_cons.mp hc with rfl | hc
    · exact hcursor
    simp only at hc
    split_ifs at hc with hstop
    · exact absurd hc List.not_mem_nil
    · rw [not_or, not_or, not_le] at hstop
      have hle := (h.le_cursor cursor (Nat.sub_pos_of_lt hroom) hstop.1).1
      exact ih (Or.inr hle) hstop.2.1 c hc

lemma asked_bounds {H ε : Type*} [DecidableEq H]
    {f : Bytes → Bytes → ℕ → Except ε (List (Bytes × H))} {objects : List (Bytes × H)}
    (h : Listed f objects pre delimiter (pageLimit maxKeys)) (n : ℕ)
    (hcursor : cursor = [] ∨ pre ≤ cursor) :
    ∀ c ∈ asked f pre delimiter maxKeys n cursor, c = [] ∨ pre ≤ c := by
  induction n generalizing cursor with
  | zero => simp [asked]
  | succ n ih =>
    intro c hc
    obtain ⟨out, token, hloop, hle, -⟩ :=
      clean_of_listFlatLoop h 15 hcursor (show [].length < _ from h.limit_pos)
    have hpage : listObjectsV2 f pre delimiter maxKeys (some cursor)
        = .ok (out, token.map fromUtf8Lossy) := by
      rw [listObjectsV2, listFlat, Option.getD_some, MAX_BATCHES, hloop]
      rfl
    rw [asked, hpage] at hc
    rcases List.mem_append.mp hc with hc | hc
    · exact askedLoop_bounds h MAX_BATCHES hcursor (show [].length < _ from h.limit_pos) c hc
    · cases token with
      | none => exact absurd hc List.not_mem_nil
      | some t => exact ih (Or.inr (hle t rfl)) c hc

end Routed

/-- The listing of a bucket over any layout and placement of its partitions: with every delimiter it
is the one of the whole bucket if each request of that one goes to a node that hosts the objects it
gets, and without a delimiter only then does it return all objects. -/
theorem routed_listing_iff {store : MetaStore} {bucket : BucketId} {layout : List PartitionRange}
    (hcover : Cover layout) (placement : Placement layout) (hheads : HoldsHeads store bucket)
    (hutf : ∀ e ∈ objectsOf store bucket, IsUtf8 e.1) {pre : Bytes} (hpre : IsUtf8 pre)
    (maxKeys : Option ℤ) :
    (∀ delimiter, IsUtf8 delimiter →
        (∀ n, ∀ c ∈ asked (wholeList store bucket) pre delimiter maxKeys n [],
          Hosted store placement bucket pre (pageLimit maxKeys) c) →
        ∀ n, follow (routedList store placement bucket) pre delimiter maxKeys n none
          = follow (wholeList store bucket) pre delimiter maxKeys n none)
      ∧ ((∃ n rows, follow (routedList store placement bucket) pre [] maxKeys n none
              = .ok (some rows)
            ∧ Exact (objectsOf store bucket) pre [] rows)
        ↔ (∀ n, ∀ c ∈ asked (wholeList store bucket) pre [] maxKeys n [],
            Hosted store placement bucket pre (pageLimit maxKeys) c)
          ∧ (pageLimit maxKeys = 1 → ∀ e ∈ under (objectsOf store bucket) pre, e.1 ≠ [])) := by
  have hnone : ∀ (f : Bytes → Bytes → ℕ → Except ListError (List (Bytes × ObjectHead)))
      (delimiter : Bytes) (n : ℕ), follow f pre delimiter maxKeys n none
        = follow f pre delimiter maxKeys n (some []) := by
    intro f delimiter n
    cases n <;> rfl
  have hsame : ∀ delimiter, IsUtf8 delimiter →
      (∀ n, ∀ c ∈ asked (wholeList store bucket) pre delimiter maxKeys n [],
        Hosted store placement bucket pre (pageLimit maxKeys) c) →
      ∀ n, follow (routedList store placement bucket) pre delimiter maxKeys n none
        = follow (wholeList store bucket) pre delimiter maxKeys n none := by
    intro delimiter hdel hhosted n
    rw [hnone, hnone]
    refine follow_congr (fun m c hc => ?_) n
    have hbounds := asked_bounds (listed_wholeList hheads hutf hpre hdel maxKeys) m (Or.inl rfl) c hc
    exact (routedList_eq_wholeList_iff hcover hheads hutf hpre placement maxKeys hbounds).mpr
      (hhosted m c hc)
  have hexact : ∀ rows, Exact (objectsOf store bucket) pre [] rows
      ↔ rows = (after (objectsOf store bucket) pre []).map .Object := by
    intro rows
    rw [exact_iff (pairwise_objectsOf store bucket), rowsAfter,
      blocks_nil_delimiter (pairwise_after (pairwise_objectsOf store bucket) pre [])]
  refine ⟨hsame, ?_, ?_⟩
  · rintro ⟨n, rows, hfollow, hrows⟩
    rw [hnone, (hexact rows).mp hrows] at hfollow
    obtain ⟨hhosted, hempty⟩ := hosted_of_follow hcover hheads hutf hpre n (Or.inl rfl) hfollow
    exact ⟨hhosted, hempty rfl⟩
  · rintro ⟨hhosted, hempty⟩
    refine ⟨(after (objectsOf store bucket) pre []).length + 1, _, ?_, (hexact _).mpr rfl⟩
    rw [hsame [] (by decide) hhosted, hnone]
    exact follow_nil (listed_wholeList hheads hutf hpre (by decide) maxKeys) hempty _ (Or.inl rfl)
      (Nat.lt_succ_self _)

/-- Two partitions of a bucket, split at `b`. -/
def splitAtB : List PartitionRange :=
  [⟨.Flat, none, some (1, [98])⟩, ⟨.Flat, some (1, [98]), none⟩, .full .Hier]

lemma cover_splitAtB : Cover splitAtB := .split [] (1, [98]) .full rfl

/-- Each of the two on a node of its own. -/
def apart : Placement splitAtB where
  leader p := if p.start = none then 1 else 2
  hosts node := if node = 1 then [⟨.Flat, none, some (1, [98])⟩, .full .Hier]
    else if node = 2 then [⟨.Flat, some (1, [98]), none⟩] else []
  leader_hosts := by decide
  hosts_subset := by
    intro node p hp
    split_ifs at hp
    · revert p
      decide
    · revert p
      decide
    · exact absurd hp List.not_mem_nil

/-- One node leads both partitions. -/
def together : Placement splitAtB where
  leader _ := 1
  hosts node := if node = 1 then splitAtB else []
  leader_hosts := by decide
  hosts_subset := by
    intro node p hp
    split_ifs at hp
    · exact hp
    · exact absurd hp List.not_mem_nil

/-- The keys `a` and `b` on one node, in pages of one key. -/
theorem routed_listing_demo :
    HoldsHeads (bucketOf [[97], [98]]) 1
      ∧ ∀ n, ∀ c ∈ asked (wholeList (bucketOf [[97], [98]]) 1) [] [] (some 1) n [],
        Hosted (bucketOf [[97], [98]]) together 1 [] (pageLimit (some 1)) c := by
  have hheads : HoldsHeads (bucketOf [[97], [98]]) 1 := by decide +kernel
  refine ⟨hheads, ((routed_listing_iff cover_splitAtB together hheads ?_ ?_ (some 1)).2.mp
    ⟨3, [.Object ([97], demoHead), .Object ([98], demoHead)], ?_, ?_⟩).1⟩
  · decide +kernel
  · decide
  · decide +kernel
  · exact (exact_iff (pairwise_objectsOf _ _)).mpr (by decide +kernel)

/-- The same keys on two nodes: the first page is short, and the listing ends without `b`. -/
theorem other_partition_is_missed :
    (objectsOf (bucketOf [[97], [98]]) 1).map Prod.fst = [[97], [98]]
      ∧ follow (routedList (bucketOf [[97], [98]]) apart 1) [] [] (some 1000) 1 none
        = .ok (some [.Object ([97], demoHead)])
      ∧ ¬ Exact (objectsOf (bucketOf [[97], [98]]) 1) [] [] [.Object ([97], demoHead)] := by
  refine ⟨by decide +kernel, by decide +kernel, ?_⟩
  rw [exact_iff (pairwise_objectsOf _ _)]
  decide +kernel

end Epoch.Gateway
