import Epoch.Pd.Slots

/-!
# Route records and raft groups

A split or a migration changes PD's record first and tells the group of the partition afterwards.  When the
push fails, nothing remembers it: the next sweep plans from the new record, in which the change is done
already, and no call is made that would bring the group in line (`lost_push_is_never_repeated`).

`records_agree` says that the two sides go together otherwise.  PD's test for a boundary is the one
of the group (`split_isSome_iff`), both halves of a split and the voters after a swap are what the records say,
and so records and groups agree in every state of a run in which each change of a route reaches its group.
-/

namespace Epoch.Pd

/-! ## The boundary test on both sides -/

lemma lt_coord_iff {a b : PartitionBound} :
    a.coord < b.coord ↔ toLex (a.bucket, a.routingKey) < toLex (b.bucket, b.routingKey) := Iff.rfl

variable {p : MetaPartition} {op : PartitionOp} {script : PartitionId → Outcome}

/-- PD accepts a boundary exactly when the group's range can be split there. -/
lemma split_isSome_iff {bound : PartitionBound} (hbound : bound.unbounded = false) :
    (p.range.split (bound.bucket, bound.routingKey)).isSome = true
      ↔ PartitionIndex.strictlyInside p bound = true := by
  have hstart : p.range.start = p.start.decode := rfl
  have hstop : p.range.stop = p.stop.decode := rfl
  have hne : (∀ s, p.start.decode = some s → toLex s ≤ toLex (bound.bucket, bound.routingKey))
        ∧ ¬p.start.decode = some (bound.bucket, bound.routingKey)
      ↔ p.start.unbounded = true ∨ p.start.coord < bound.coord := by
    cases hunb : p.start.unbounded with
    | true => simp [PartitionBound.decode, hunb]
    | false =>
      simp only [PartitionBound.decode, hunb, Bool.false_eq_true, if_false, Option.some.injEq,
        forall_eq', false_or, lt_iff_le_and_ne, ne_eq]
      exact Iff.rfl
  have hend : (∀ e, p.stop.decode = some e → toLex (bound.bucket, bound.routingKey) < toLex e)
      ↔ p.stop.unbounded = true ∨ bound.coord < p.stop.coord := by
    cases hunb : p.stop.unbounded with
    | true => simp [PartitionBound.decode, hunb]
    | false => simp [PartitionBound.decode, hunb, lt_coord_iff]
  have hsplit : (p.range.split (bound.bucket, bound.routingKey)).isSome = true
      ↔ p.range.containsCoord bound.bucket bound.routingKey = true
        ∧ ¬p.range.start = some (bound.bucket, bound.routingKey) := by
    rw [PartitionRange.split]
    split_ifs with hcontains hat <;> simp_all
  rw [hsplit, PartitionRange.containsCoord_iff, hstart, hstop, hend, and_right_comm, hne]
  simp [PartitionIndex.strictlyInside, hbound]

/-! ## Entries that leave the routes alone -/

/-- The entry changes no record that is there.  Others' splits and migrations come without a push. -/
def LeavesRoutes (pd : PdState) : PdEntry → Prop
  | .SplitPartition cmd => acceptsSplit pd cmd.parentId cmd.boundary = false
  | .MigratePartition cmd => acceptsMigrate pd cmd.partitionId cmd.source cmd.target = false
  | _ => True

instance (pd : PdState) (entry : PdEntry) : Decidable (LeavesRoutes pd entry) := by
  apply PdEntry.casesOn (motive := fun entry => Decidable (LeavesRoutes pd entry)) entry
  all_goals
    intros
    first | exact inferInstanceAs (Decidable (_ = false)) | exact inferInstanceAs (Decidable True)

lemma get_next_of_leavesRoutes {pd : PdState} {entry : PdEntry} (hkeyed : pd.partitions.Keyed)
    (h : LeavesRoutes pd entry) {id : PartitionId} (hp : pd.partitions.get id = some p) :
    (pd.next entry).partitions.get id = some p := by
  have hchange := routeChange_next pd entry
  generalize (pd.next entry).partitions = index' at hchange ⊢
  cases hchange with
  | same => exact hp
  | created cmd hroom =>
    have hfresh : pd.partitions.nextId ≠ id := fun heq => by
      have hnone := hkeyed.get_nextId
      rw [heq, hp] at hnone
      cases hnone
    exact (OrdMap.get_insert _ _ _ _).trans ((if_neg hfresh).trans hp)
  | split cmd parent hparent hinside hroom =>
    simp [LeavesRoutes, acceptsSplit, hparent, hinside] at h
  | migrated cmd partition hget hnew hpeers =>
    have haccept : acceptsMigrate pd cmd.partitionId cmd.source cmd.target = true := by
      rw [acceptsMigrate, hget]
      exact decide_eq_true ⟨hnew, hpeers⟩
    rw [LeavesRoutes, haccept] at h
    cases h

/-! ## Agreement -/

/-- Every group belongs to a record and has its range and its peers. -/
structure InSync (w : World) : Prop where
  keyed : w.pd.partitions.Keyed
  groups : ∀ id group, w.groups.get id = some group →
    ∃ p, w.pd.partitions.get id = some p ∧ group.range = p.range
      ∧ group.voters = p.peers.toFinset

/-- The peers all have an address. -/
def registered (w : World) (peers : List NodeId) : Bool := peers.all fun id => w.pd.nodes.contains id

section Agree

variable {w : World} {p : MetaPartition}

lemma peers_of_registered (h : registered w p.peers = true) : w.peers p = p.peers.toFinset := by
  rw [World.peers]
  congr 1
  exact List.filter_eq_self.mpr fun id hid => List.all_eq_true.mp h id hid

lemma InSync.next (h : InSync w) {entry : PdEntry} (hleaves : LeavesRoutes w.pd entry) :
    InSync (w.next entry) := by
  refine ⟨keyed_next h.keyed entry, fun id group hgroup => ?_⟩
  obtain ⟨p, hp, hrange, hvoters⟩ := h.groups id group hgroup
  exact ⟨p, get_next_of_leavesRoutes h.keyed hleaves hp, hrange, hvoters⟩

lemma InSync.advance {entries : List PdEntry} (h : InSync w)
    (hleaves : Along PdState.next LeavesRoutes w.pd entries) :
    InSync (w.advance entries)
      ∧ ∀ id p, w.pd.partitions.get id = some p → (w.advance entries).pd.partitions.get id = some p := by
  induction entries generalizing w with
  | nil => exact ⟨h, fun _ _ hp => hp⟩
  | cons entry entries ih =>
    obtain ⟨hsync, hkeep⟩ := ih (w := w.next entry) (h.next hleaves.1) hleaves.2
    exact ⟨hsync, fun id p hp => hkeep id p (get_next_of_leavesRoutes h.keyed hleaves.1 hp)⟩

lemma InSync.createRaftGroup (h : InSync w) {id : PartitionId}
    (hpeers : ∀ p ∈ w.pd.partitions.get id, registered w p.peers = true) :
    InSync (w.createRaftGroup id) := by
  unfold World.createRaftGroup
  cases hp : w.pd.partitions.get id with
  | none => exact h
  | some p =>
    cases hgroup : w.groups.get id with
    | some group => exact h
    | none =>
      refine ⟨h.keyed, fun id' group' hget => ?_⟩
      rw [OrdMap.get_insert] at hget
      split_ifs at hget with hid
      · subst hid
        rw [← Option.some.inj hget]
        exact ⟨p, hp, rfl, peers_of_registered (hpeers p hp)⟩
      · exact h.groups id' group' hget

/-! The two pushes, after their entry. -/

/-- The state after a split. -/
def splitPd (pd : PdState) (p : MetaPartition) (bound : PartitionBound) : PdState :=
  { pd with partitions := pd.partitions.withSplit ⟨p.partitionId, bound⟩ p }

variable {group : LiveGroup} {peers : List NodeId}

/-- The push after a split reaches the group, and the two groups are what the two records say. -/
lemma InSync.applySplit (h : InSync w) {bound : PartitionBound}
    (hp : w.pd.partitions.get p.partitionId = some p)
    (hgroup : w.groups.get p.partitionId = some group)
    (hinside : PartitionIndex.strictlyInside p bound = true)
    (hpeers : registered w p.peers = true) (hkeyed : (splitPd w.pd p bound).partitions.Keyed) :
    ∃ pushed, World.applySplit { w with pd := splitPd w.pd p bound } p w.pd.partitions.nextId bound
        = some pushed ∧ InSync pushed := by
  obtain ⟨q, hq, hrange, hvoters⟩ := h.groups _ group hgroup
  rw [hp] at hq
  cases hq
  have hchild : w.groups.get w.pd.partitions.nextId = none := by
    cases hget : w.groups.get w.pd.partitions.nextId with
    | none => rfl
    | some group' =>
      obtain ⟨q, hq, -⟩ := h.groups _ group' hget
      rw [h.keyed.get_nextId] at hq
      cases hq
  have hbound : bound.unbounded = false := by
    cases hunb : bound.unbounded with
    | false => rfl
    | true => simp [PartitionIndex.strictlyInside, hunb] at hinside
  have hdecode : bound.decode = some (bound.bucket, bound.routingKey) := by
    simp [PartitionBound.decode, hbound]
  obtain ⟨⟨left, right⟩, hsplit⟩ :=
    Option.isSome_iff_exists.mp ((split_isSome_iff hbound).mpr hinside)
  obtain ⟨-, -, hleft, hright⟩ := PartitionRange.split_eq_some hsplit
  have hpeers' : World.peers { w with pd := splitPd w.pd p bound } p = p.peers.toFinset :=
    @peers_of_registered w p hpeers
  simp only [World.applySplit, hgroup, Option.map_some, hrange, hsplit, hchild, hpeers']
  refine ⟨_, rfl, hkeyed, fun id group' hget => ?_⟩
  simp only [splitPd, PartitionIndex.get, PartitionIndex.withSplit, OrdMap.get_insert] at hget ⊢
  by_cases hid : w.pd.partitions.nextId = id
  · rw [if_pos hid] at hget ⊢
    rw [← Option.some.inj hget]
    refine ⟨_, rfl, ?_, rfl⟩
    rw [hright]
    simp [MetaPartition.range, PartitionIndex.splitChild, hdecode]
  · rw [if_neg hid] at hget ⊢
    by_cases hparent : p.partitionId = id
    · rw [if_pos hparent] at hget ⊢
      rw [← Option.some.inj hget]
      refine ⟨_, rfl, ?_, hvoters⟩
      show left = _
      rw [hleft]
      simp [MetaPartition.range, PartitionIndex.narrowed, hdecode]
    · rw [if_neg hparent] at hget ⊢
      exact h.groups id group' hget

variable {source target : NodeId}

/-- Swapping the voters by way of the record gives the record's peers. -/
lemma swapped_voters (hne : source ≠ target) :
    ((insert target ((insert source
        (PartitionIndex.swapPeer peers source target).toFinset).erase target)).erase source)
      = (PartitionIndex.swapPeer peers source target).toFinset := by
  ext id
  by_cases htarget : target ∈ peers
  · by_cases hid : id = target
    · simp [PartitionIndex.swapPeer, htarget, hid, hne.symm]
    · by_cases hids : id = source <;> simp [PartitionIndex.swapPeer, htarget, hid, hids]
  · by_cases hid : id = target
    · simp [PartitionIndex.swapPeer, htarget, hid, hne.symm]
    · by_cases hids : id = source <;>
        simp [PartitionIndex.swapPeer, htarget, hid, hids, hne]

lemma target_mem_swapPeer (hne : source ≠ target) :
    target ∈ PartitionIndex.swapPeer peers source target := by
  by_cases htarget : target ∈ peers <;> simp [PartitionIndex.swapPeer, htarget, hne.symm]

/-- The state after a swap of peers. -/
def migratedPd (pd : PdState) (p : MetaPartition) (source target : NodeId) : PdState :=
  { pd with partitions := pd.partitions.withMigrated ⟨p.partitionId, source, target⟩ p }

lemma get_migratedPd (pd : PdState) (p : MetaPartition) (source target : NodeId) :
    (migratedPd pd p source target).partitions.get p.partitionId
      = some (PartitionIndex.migrated p ⟨p.partitionId, source, target⟩) :=
  (OrdMap.get_insert _ _ _ _).trans (if_pos rfl)

/-- The push after a swap reaches the group and leaves it with the peers of the record. -/
lemma InSync.migrateGroupMember (h : InSync w) (hne : source ≠ target)
    (hp : w.pd.partitions.get p.partitionId = some p)
    (hgroup : w.groups.get p.partitionId = some group)
    (hpeers : registered w (PartitionIndex.swapPeer p.peers source target) = true)
    (hkeyed : (migratedPd w.pd p source target).partitions.Keyed) :
    ∃ pushed, World.migrateGroupMember { w with pd := migratedPd w.pd p source target }
        (PartitionIndex.migrated p ⟨p.partitionId, source, target⟩) source target = some pushed
      ∧ InSync pushed := by
  have hvoters : World.peers { w with pd := migratedPd w.pd p source target }
      (PartitionIndex.migrated p ⟨p.partitionId, source, target⟩)
        = (PartitionIndex.swapPeer p.peers source target).toFinset :=
    @peers_of_registered w (PartitionIndex.migrated p ⟨p.partitionId, source, target⟩) hpeers
  have htarget : target ∈ (PartitionIndex.swapPeer p.peers source target).toFinset :=
    List.mem_toFinset.mpr (target_mem_swapPeer hne)
  have hgroup' : w.groups.get
      (PartitionIndex.migrated p ⟨p.partitionId, source, target⟩).partitionId = some group := hgroup
  simp only [World.migrateGroupMember, hvoters, swapped_voters hne, htarget, not_true_eq_false,
    if_false, Finset.ne_empty_of_mem htarget, hgroup', Option.map_some]
  refine ⟨_, rfl, hkeyed, fun id group' hget => ?_⟩
  obtain ⟨q, hq, hrange, -⟩ := h.groups _ group hgroup
  rw [hp] at hq
  cases hq
  simp only [OrdMap.get_insert] at hget
  by_cases hid : p.partitionId = id
  · rw [if_pos (show (PartitionIndex.migrated p _).partitionId = id from hid)] at hget
    rw [← Option.some.inj hget, ← hid]
    exact ⟨_, get_migratedPd w.pd p source target, hrange, rfl⟩
  · rw [if_neg (show ¬(PartitionIndex.migrated p _).partitionId = id from hid)] at hget
    obtain ⟨q, hq, hagree⟩ := h.groups id group' hget
    exact ⟨q, (OrdMap.get_insert _ _ _ _).trans ((if_neg hid).trans hq), hagree⟩

end Agree

/-! ## Executing an operation -/

/-- The call takes effect, whether it is answered or not. -/
def Answer.takes : Answer → Bool
  | .ok => true
  | .failed took => took

/-- An accepted proposal is answered, and the push that follows takes effect on a group that is there. -/
def CompletesProposal (o : Outcome) (accepts reachable : Bool) : Prop :=
  match o.proposal with
  | .failed took => took = true → accepts = false
  | .ok => accepts = true → o.push.takes = true ∧ reachable = true

instance : (o : Outcome) → (accepts reachable : Bool) →
    Decidable (CompletesProposal o accepts reachable)
  | ⟨_, _, _, .ok, _⟩, _, _ | ⟨_, _, _, .failed _, _⟩, _, _ => inferInstanceAs (Decidable (_ → _))

def CompletesKind (w : World) (p : MetaPartition) (o : Outcome) : OpKind → Prop
  | .Split =>
    match o.suggested with
    | .boundary bound =>
      CompletesProposal o (acceptsSplit (w.advance o.between).pd p.partitionId bound)
        ((w.groups.get p.partitionId).isSome && registered (w.advance o.between) p.peers)
    | _ => True
  | .Migrate source target =>
    CompletesProposal o (acceptsMigrate (w.advance o.between).pd p.partitionId source target)
      ((w.groups.get p.partitionId).isSome
        && registered (w.advance o.between) (PartitionIndex.swapPeer p.peers source target))

instance (w : World) (p : MetaPartition) :
    (o : Outcome) → (kind : OpKind) → Decidable (CompletesKind w p o kind)
  | ⟨_, .boundary _, _, _, _⟩, .Split | _, .Migrate _ _ =>
    inferInstanceAs (Decidable (CompletesProposal _ _ _))
  | ⟨_, .failed, _, _, _⟩, .Split | ⟨_, .deferred, _, _, _⟩, .Split => inferInstanceAs (Decidable True)

/-- Others leave the routes alone meanwhile, and a change of the route reaches the group. -/
def Completes (script : PartitionId → Outcome) (s : Sched) (op : PartitionOp) : Prop :=
  let o := script op.partitionId
  let w := s.world.advance o.before
  Along PdState.next LeavesRoutes s.world.pd (o.before ++ o.between)
    ∧ ∀ p ∈ w.pd.partitions.get op.partitionId, CompletesKind w p o op.kind

instance (script : PartitionId → Outcome) (s : Sched) (op : PartitionOp) :
    Decidable (Completes script s op) := by
  unfold Completes
  infer_instance

section Execute

variable {w : World} {p : MetaPartition} {o : Outcome}

lemma send_of_takes {answer : Answer} {push : World → Option World} {pushed : World}
    (htakes : answer.takes = true) (hpush : push w = some pushed) :
    (answer.send push w).2 = pushed := by
  unfold Answer.send
  rw [hpush]
  cases answer with
  | ok => rfl
  | failed took =>
    cases took with
    | true => rfl
    | false => cases htakes

variable {id : PartitionId}

lemma inSync_drive {entry : PdEntry} {id : PartitionId} {accepts reachable : Bool}
    {onResult : ApplyResult → Option (World → Option World)} (h : InSync w)
    (hrejected : accepts = false → LeavesRoutes w.pd entry
      ∧ ∃ reason pd', w.pd.applyCommand entry = .ok (.Rejected reason, pd'))
    (haccepted : accepts = true → reachable = true → (∃ err, w.pd.applyCommand entry = .error err)
      ∨ ∃ result pd' push pushed, w.pd.applyCommand entry = .ok (result, pd')
        ∧ (∀ reason, result ≠ .Rejected reason) ∧ onResult result = some push
        ∧ push { w with pd := pd' } = some pushed ∧ InSync pushed)
    (hcompletes : CompletesProposal o accepts reachable) :
    InSync (drive w entry id o onResult).world := by
  rw [CompletesProposal] at hcompletes
  rw [drive]
  cases hproposal : o.proposal with
  | failed took =>
    rw [hproposal] at hcompletes
    cases took with
    | false => exact h
    | true => exact h.next (hrejected (hcompletes rfl)).1
  | ok =>
    rw [hproposal] at hcompletes
    cases accepts with
    | false =>
      obtain ⟨hleaves, reason, pd', happly⟩ := hrejected rfl
      simp only [happly]
      exact h.next hleaves
    | true =>
      obtain ⟨htakes, hreach⟩ := hcompletes rfl
      rcases haccepted rfl hreach with ⟨err, herr⟩ | ⟨result, pd', push, pushed, hok, hnot, hon, hpush, hsync⟩
      · simp only [herr]
        exact h
      · have hnext : w.next entry = { w with pd := pd' } := by
          rw [World.next, PdState.next_of_ok hok]
        have hsent : (o.push.send push (w.next entry)).2 = pushed := by
          rw [hnext]
          exact send_of_takes htakes hpush
        cases result with
        | Rejected reason => exact absurd rfl (hnot reason)
        | _ =>
          simp only [hok, hon]
          rw [hsent]
          exact hsync

variable {pd : PdState} {source target : NodeId}

lemma applyCommand_split_rejected {bound : PartitionBound} (h : acceptsSplit pd id bound = false) :
    ∃ reason pd', pd.applyCommand (.SplitPartition ⟨id, bound⟩) = .ok (.Rejected reason, pd') := by
  cases hp : pd.partitions.get id with
  | none =>
    have hget : pd.partitions.partitions.get id = none := hp
    simp [PdState.applyCommand, PartitionIndex.applySplit, hget, Except.map]
  | some p =>
    have hget : pd.partitions.partitions.get id = some p := hp
    rw [acceptsSplit, hp] at h
    have hinside : PartitionIndex.strictlyInside p bound = false := h
    simp [PdState.applyCommand, PartitionIndex.applySplit, hget, hinside, Except.map]

lemma applyCommand_migrate_rejected (h : acceptsMigrate pd id source target = false) :
    ∃ reason pd',
      pd.applyCommand (.MigratePartition ⟨id, source, target⟩) = .ok (.Rejected reason, pd') := by
  cases hp : pd.partitions.get id with
  | none =>
    have hget : pd.partitions.partitions.get id = none := hp
    simp [PdState.applyCommand, PartitionIndex.applyMigrate, hget]
  | some p =>
    have hget : pd.partitions.partitions.get id = some p := hp
    rw [acceptsMigrate, hp] at h
    have hnot := of_decide_eq_false h
    by_cases hreplay : target ∈ p.peers ∧ source ∉ p.peers
    · simp [PdState.applyCommand, PartitionIndex.applyMigrate, hget, hreplay]
    · have hempty : PartitionIndex.swapPeer p.peers source target = [] := by
        by_contra hne
        exact hnot ⟨hreplay, hne⟩
      simp [PdState.applyCommand, PartitionIndex.applyMigrate, hget, hreplay, hempty]

lemma InSync.executeSplit (h : InSync w) (hp : w.pd.partitions.get p.partitionId = some p)
    (hleaves : Along PdState.next LeavesRoutes w.pd o.between)
    (hcompletes : CompletesKind w p o .Split) : InSync (executeSplit w p o).world := by
  obtain ⟨hsync, hkeep⟩ := h.advance hleaves
  rw [CompletesKind] at hcompletes
  rw [Pd.executeSplit]
  cases hsuggested : o.suggested with
  | failed => exact h
  | deferred => exact h
  | boundary bound =>
    rw [hsuggested] at hcompletes
    refine inSync_drive hsync (fun hreject => ⟨hreject, applyCommand_split_rejected hreject⟩)
      (fun haccept hreach => ?_) hcompletes
    obtain ⟨hgroup, hpeers⟩ := Bool.and_eq_true_iff.mp hreach
    obtain ⟨group, hgroup⟩ := Option.isSome_iff_exists.mp hgroup
    have hp' := hkeep _ p hp
    obtain ⟨q, hq, hinside⟩ := exists_of_any haccept
    rw [hp'] at hq
    cases hq
    rcases applyCommand_split hp' hinside with herr | ⟨tag, hok⟩
    · exact Or.inl herr
    · have hkeyed := keyed_next hsync.keyed (.SplitPartition ⟨p.partitionId, bound⟩)
      rw [PdState.next_of_ok hok] at hkeyed
      obtain ⟨pushed, hpush, hpushed⟩ := hsync.applySplit hp' hgroup hinside hpeers hkeyed
      exact Or.inr ⟨_, splitPd (w.advance o.between).pd p bound, _, pushed, hok,
        fun reason => by simp, rfl, hpush, hpushed⟩

lemma InSync.executeMigrate (h : InSync w) (hne : source ≠ target)
    (hp : w.pd.partitions.get p.partitionId = some p)
    (hleaves : Along PdState.next LeavesRoutes w.pd o.between)
    (hcompletes : CompletesKind w p o (.Migrate source target)) :
    InSync (executeMigrate w p source target o).world := by
  obtain ⟨hsync, hkeep⟩ := h.advance hleaves
  rw [CompletesKind] at hcompletes
  rw [Pd.executeMigrate]
  refine inSync_drive hsync (fun hreject => ⟨hreject, applyCommand_migrate_rejected hreject⟩)
    (fun haccept hreach => ?_) hcompletes
  obtain ⟨hgroup, hpeers⟩ := Bool.and_eq_true_iff.mp hreach
  obtain ⟨group, hgroup⟩ := Option.isSome_iff_exists.mp hgroup
  have hp' := hkeep _ p hp
  obtain ⟨q, hq, hswap⟩ := exists_of_any haccept
  rw [hp'] at hq
  cases hq
  obtain ⟨hnew, hnonempty⟩ := of_decide_eq_true hswap
  have hok := applyCommand_migrate hp' hnew hnonempty
  have hkeyed := keyed_next hsync.keyed (.MigratePartition ⟨p.partitionId, source, target⟩)
  rw [PdState.next_of_ok hok] at hkeyed
  obtain ⟨pushed, hpush, hpushed⟩ := hsync.migrateGroupMember hne hp' hgroup hpeers hkeyed
  refine Or.inr ⟨_, migratedPd (w.advance o.between).pd p source target, _, pushed, hok,
    fun reason => by simp, rfl, ?_, hpushed⟩
  rw [get_migratedPd, Option.getD_some]
  exact hpush

end Execute

/-! ## Sweeps and runs -/

/-- A migration is from one node to another. -/
def PartitionOp.Proper (op : PartitionOp) : Prop :=
  ∀ source target, op.kind = .Migrate source target → source ≠ target

variable {s : Sched}

lemma proper_of_admitted {cfg : SchedulerConfig} {totalBytes : PartitionId → Option UInt64}
    (h : op ∈ (admitted cfg totalBytes s).2) : op.Proper := by
  intro source target hkind
  rcases mem_admitOps h with ⟨m, hm, rfl⟩ | ⟨d, hd, rfl⟩
  · obtain ⟨p, -, -, -, hsource, htarget⟩ := mem_planMigrations hm
    cases hkind
    exact fun heq => htarget (heq ▸ hsource)
  · cases hkind

lemma InSync.executeOp (h : InSync s.world) (hproper : op.Proper)
    (hcompletes : Completes script s op) :
    InSync (executeOp script s op).world := by
  obtain ⟨hleaves, hkind⟩ := hcompletes
  obtain ⟨hbefore, hbetween⟩ := (along_append _ _ _).mp hleaves
  obtain ⟨hsync, -⟩ := h.advance hbefore
  rw [Pd.executeOp]
  cases hp : (s.world.advance (script op.partitionId).before).pd.partitions.get op.partitionId with
  | none => exact hsync
  | some p =>
    have hkind := hkind p hp
    have hp' : (s.world.advance (script op.partitionId).before).pd.partitions.get p.partitionId
        = some p := by
      rw [hsync.keyed.partitionId hp]
      exact hp
    simp only
    cases hop : op.kind with
    | Split =>
      rw [hop] at hkind
      exact hsync.executeSplit hp' hbetween hkind
    | Migrate source target =>
      rw [hop] at hkind
      exact hsync.executeMigrate (hproper source target hop) hp' hbetween hkind

lemma inSync_loop {ops : List PartitionOp} (h : InSync s.world) (hproper : ∀ op ∈ ops, op.Proper)
    (hcompletes : Along (executeOp script) (Completes script) s ops) :
    InSync (run (executeOp script) s ops).world := by
  induction ops generalizing s with
  | nil => exact h
  | cons op ops ih =>
    exact ih (h.executeOp (hproper op List.mem_cons_self) hcompletes.1)
      (fun op' hop' => hproper op' (List.mem_cons_of_mem op hop')) hcompletes.2

/-- A sweep names the controller of the replica that leads. -/
inductive ClusterEvent
  | entry (entry : PdEntry)
  | createRaftGroup (id : PartitionId)
  | sweep (controller : OperatorController) (totalBytes : PartitionId → Option UInt64)
      (script : PartitionId → Outcome)

namespace World

def new : World := ⟨.new, .empty⟩

def step (cfg : SchedulerConfig) (w : World) : ClusterEvent → World
  | .entry entry => w.next entry
  | .createRaftGroup id => w.createRaftGroup id
  | .sweep controller totalBytes script => (sweep cfg totalBytes script ⟨w, controller, []⟩).world

/-- Every change of a route reaches its group, and peers have addresses when they are told to a group. -/
def EventCompletes (cfg : SchedulerConfig) (w : World) : ClusterEvent → Prop
  | .entry entry => LeavesRoutes w.pd entry
  | .createRaftGroup id => ∀ p ∈ w.pd.partitions.get id, registered w p.peers = true
  | .sweep controller totalBytes script =>
    Along (executeOp script) (Completes script)
      (startSweep cfg totalBytes ⟨w, controller, []⟩)
      (admitted cfg totalBytes ⟨w, controller, []⟩).2

instance (cfg : SchedulerConfig) (w : World) (event : ClusterEvent) :
    Decidable (w.EventCompletes cfg event) := by
  cases event <;> simp only [EventCompletes] <;> infer_instance

lemma inSync_new : InSync new := ⟨keyed_new, fun id group h => by simp [new] at h⟩

lemma inSync_step {cfg : SchedulerConfig} {w : World} {event : ClusterEvent} (h : InSync w)
    (hcompletes : w.EventCompletes cfg event) : InSync (w.step cfg event) := by
  cases event with
  | entry entry => exact h.next hcompletes
  | createRaftGroup id => exact h.createRaftGroup hcompletes
  | sweep controller totalBytes script =>
    exact inSync_loop (s := startSweep cfg totalBytes ⟨w, controller, []⟩) h
      (fun op hop => proper_of_admitted hop) hcompletes

/-- In every run of entries, group creations and sweeps of any replica in which each change of a route reaches
its group, record and group of every partition agree in every state. -/
theorem records_agree {cfg : SchedulerConfig} (events : List ClusterEvent)
    (h : Along (step cfg) (EventCompletes cfg) new events) (n : ℕ) {id : PartitionId}
    {p : MetaPartition} {group : LiveGroup}
    (hp : (run (step cfg) new (events.take n)).pd.partitions.get id = some p)
    (hgroup : (run (step cfg) new (events.take n)).groups.get id = some group) :
    group.range = p.range ∧ group.voters = p.peers.toFinset := by
  have hsync : InSync (run (step cfg) new (events.take n)) :=
    Along.invariant (P := InSync) (fun w event hw hevent => inSync_step hw hevent) inSync_new
      (h.take n)
  obtain ⟨q, hq, hagree⟩ := hsync.groups id group hgroup
  rw [hp] at hq
  cases hq
  exact hagree

/-- A partition on a live node, with its group. -/
def servedPartition : List ClusterEvent :=
  [.entry (.RegisterNode ⟨"n1", "az", "r1", .META⟩), .entry (.UpdateNodeStatus ⟨1, .Live⟩),
    .entry (.CreatePartition ⟨.Flat, .unboundedStart, .unboundedEnd, [1]⟩), .createRaftGroup 1]

/-- A sweep that finds the partition over the limit and splits it at a key of bucket 7. -/
def splitSweep (push : Answer) : ClusterEvent :=
  .sweep (.new 0) (fun _ => some 2) fun _ => ⟨[], .boundary (.at' 7 [1]), [], .ok, push⟩

theorem records_agree_demo :
    let w := run (step Sched.splitsOnly) new (servedPartition ++ [splitSweep .ok])
    w.groups.get 2 = some ⟨⟨.Flat, some (7, [1]), none⟩, {1}⟩
      ∧ (⟨.Flat, some (7, [1]), none⟩ : PartitionRange)
        = (⟨2, .Flat, .at' 7 [1], .unboundedEnd, [1], 1⟩ : MetaPartition).range := by
  have hcompletes : Along (step Sched.splitsOnly) (EventCompletes Sched.splitsOnly) new
      (servedPartition ++ [splitSweep .ok]) := by decide +kernel
  have hgroup : (run (step Sched.splitsOnly) new
      ((servedPartition ++ [splitSweep .ok]).take 5)).groups.get 2
        = some ⟨⟨.Flat, some (7, [1]), none⟩, {1}⟩ := by decide +kernel
  have hp : (run (step Sched.splitsOnly) new
      ((servedPartition ++ [splitSweep .ok]).take 5)).pd.partitions.get 2
        = some ⟨2, .Flat, .at' 7 [1], .unboundedEnd, [1], 1⟩ := by decide +kernel
  exact ⟨hgroup, (records_agree _ hcompletes 5 hp hgroup).1⟩

/-- The push of a split is lost.  The group keeps the whole range although the record ends at the boundary, and
stays so: a sweep in which every call succeeds and the group suggests the same key proposes a split that PD
rejects, and one without a size report does nothing. -/
theorem lost_push_is_never_repeated :
    let w := run (step Sched.splitsOnly) new (servedPartition ++ [splitSweep (.failed false)])
    let again := w.step Sched.splitsOnly (splitSweep .ok)
    (w.pd.partitions.get 1).map MetaPartition.range = some ⟨.Flat, none, some (7, [1])⟩
      ∧ (w.groups.get 1).map LiveGroup.range = some ⟨.Flat, none, none⟩
      ∧ (again.pd.partitions.get 1).map MetaPartition.range = some ⟨.Flat, none, some (7, [1])⟩
      ∧ (again.groups.get 1).map LiveGroup.range = some ⟨.Flat, none, none⟩
      ∧ (admitted Sched.splitsOnly (fun _ => none) ⟨w, .new 0, []⟩).2 = [] := by
  decide +kernel

end World

end Epoch.Pd
