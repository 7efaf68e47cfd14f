import Epoch.Pd.Scheduler

/-!
# Scheduler slots

An operation keeps its slot in the controller until the route epoch of its partition moves or its execution
returns an error.  Two exits of an execution do neither: a deferred split and a rejected proposal are answered
with success and change nothing, so that the slot is never freed and the partition never scheduled again
(`deferred_split_blocks_partition`).

`slots_follow_changes` says that without these two, and without an error after a change was committed, the
registered operations are at all times the ones that changed a route since the last sweep began, the budget
left is what they leave of it, and the next sweep admits every partition it plans.
-/

namespace Epoch.Pd

/-! ## Route epochs along a run -/

/-- No route epoch is at its maximum. -/
def RouteRoom (pd : PdState) : Prop := ∀ p ∈ pd.partitions.list, p.epoch.toNat + 1 < 2 ^ 64

instance (pd : PdState) : Decidable (RouteRoom pd) :=
  inferInstanceAs (Decidable (∀ p ∈ pd.partitions.list, _))

/-- Partitions stay, and their route epochs do not go back. -/
def Grows (pd pd' : PdState) : Prop :=
  ∀ id p, pd.partitions.get id = some p →
    ∃ p', pd'.partitions.get id = some p' ∧ p.epoch.toNat ≤ p'.epoch.toNat

lemma Grows.refl (pd : PdState) : Grows pd pd := fun _ p hp => ⟨p, hp, le_rfl⟩

lemma Grows.trans {a b c : PdState} (hab : Grows a b) (hbc : Grows b c) : Grows a c := by
  intro id p hp
  obtain ⟨q, hq, hpq⟩ := hab id p hp
  obtain ⟨r, hr, hqr⟩ := hbc id q hq
  exact ⟨r, hr, hpq.trans hqr⟩

section Entries

variable {pd : PdState}

lemma PartitionIndex.mem_list {index : PartitionIndex} {id : PartitionId} {p : MetaPartition}
    (h : index.get id = some p) : p ∈ index.list :=
  List.mem_map.mpr ⟨(id, p), (OrdMap.mem_toList_iff _ _ _).mpr h, rfl⟩

lemma grows_next (hkeyed : pd.partitions.Keyed) (hroom : RouteRoom pd) (entry : PdEntry) :
    Grows pd (pd.next entry) :=
  fun _ p hp => hkeyed.epoch_le (routeChange_next pd entry) hp
    (hroom p (PartitionIndex.mem_list hp))

lemma keyed_next (hkeyed : pd.partitions.Keyed) (entry : PdEntry) :
    (pd.next entry).partitions.Keyed :=
  hkeyed.change (routeChange_next pd entry)

/-- Along entries that leave room in the epochs. -/
lemma grows_run {entries : List PdEntry} (hkeyed : pd.partitions.Keyed)
    (hroom : Throughout PdState.next RouteRoom pd entries) :
    (run PdState.next pd entries).partitions.Keyed ∧ Grows pd (run PdState.next pd entries)
      ∧ RouteRoom (run PdState.next pd entries) := by
  induction entries generalizing pd with
  | nil => exact ⟨hkeyed, .refl pd, hroom⟩
  | cons entry entries ih =>
    obtain ⟨hkeyed', hgrows, hlast⟩ := ih (keyed_next hkeyed entry) hroom.2
    exact ⟨hkeyed', (grows_next hkeyed hroom.1 entry).trans hgrows, hlast⟩

end Entries

/-! ## Accepted proposals -/

def acceptsSplit (pd : PdState) (id : PartitionId) (bound : PartitionBound) : Bool :=
  (pd.partitions.get id).any fun p => PartitionIndex.strictlyInside p bound

def acceptsMigrate (pd : PdState) (id : PartitionId) (source target : NodeId) : Bool :=
  (pd.partitions.get id).any fun p =>
    ¬(target ∈ p.peers ∧ source ∉ p.peers) ∧ PartitionIndex.swapPeer p.peers source target ≠ []

/-- The route epoch of the partition goes up by one. -/
def Bumps (pd pd' : PdState) (id : PartitionId) : Prop :=
  ∃ p p', pd.partitions.get id = some p ∧ pd'.partitions.get id = some p'
    ∧ p'.epoch = p.epoch + 1

section Accepted

variable {pd : PdState} {id : PartitionId}

lemma exists_of_any {α : Type} {o : Option α} {f : α → Bool} (h : o.any f = true) :
    ∃ a, o = some a ∧ f a = true := by
  cases o with
  | none => cases h
  | some a => exact ⟨a, rfl, h⟩

lemma Bumps.changesRoute {entry : PdEntry} (h : Bumps pd (pd.next entry) id) :
    changesRoute pd entry id = true := by
  obtain ⟨p, p', hp, hp', hepoch⟩ := h
  have hne : p.epoch + 1 ≠ p.epoch := by simp
  simp [Pd.changesRoute, hp, hp', hepoch]

lemma Bumps.lt {pd' : PdState} (h : Bumps pd pd' id) (hroom : RouteRoom pd) :
    ∃ p p', pd.partitions.get id = some p ∧ pd'.partitions.get id = some p'
      ∧ p.epoch.toNat < p'.epoch.toNat := by
  obtain ⟨p, p', hp, hp', hepoch⟩ := h
  refine ⟨p, p', hp, hp', ?_⟩
  have hlt := hroom p (PartitionIndex.mem_list hp)
  rw [hepoch, UInt64.toNat_add, show (1 : UInt64).toNat = 1 from rfl, Nat.mod_eq_of_lt hlt]
  omega

variable {p : MetaPartition}

variable {bound : PartitionBound} {source target : NodeId}

lemma applyCommand_split (hp : pd.partitions.get id = some p)
    (hinside : PartitionIndex.strictlyInside p bound = true) :
    (∃ err, pd.applyCommand (.SplitPartition ⟨id, bound⟩) = .error err)
      ∨ ∃ tag, pd.applyCommand (.SplitPartition ⟨id, bound⟩)
        = .ok (.PartitionSplit pd.partitions.nextId tag,
          { pd with partitions := pd.partitions.withSplit ⟨id, bound⟩ p }) := by
  have hget : pd.partitions.partitions.get id = some p := hp
  simp only [PdState.applyCommand, PartitionIndex.applySplit, hget, hinside, Bool.not_true,
    Bool.false_eq_true, if_false]
  cases hnext : pd.partitions.advanceId with
  | error err => exact Or.inl ⟨err, rfl⟩
  | ok nextId =>
    cases htag : pd.partitions.advanceInoTag with
    | error err => exact Or.inl ⟨err, rfl⟩
    | ok nextInoTag =>
      right
      rw [(PartitionIndex.advanceId_ok hnext).2, PartitionIndex.advanceInoTag_ok htag]
      exact ⟨pd.partitions.nextInoTag, rfl⟩

lemma bumps_withSplit (hkeyed : pd.partitions.Keyed) (hp : pd.partitions.get id = some p) :
    Bumps pd { pd with partitions := pd.partitions.withSplit ⟨id, bound⟩ p } id := by
  have hfresh : pd.partitions.nextId ≠ id := fun heq => by
    have hnone := hkeyed.get_nextId
    rw [heq, hp] at hnone
    cases hnone
  refine ⟨p, PartitionIndex.narrowed p bound, hp, ?_, rfl⟩
  simp [PartitionIndex.get, PartitionIndex.withSplit, hfresh]

lemma applyCommand_migrate (hp : pd.partitions.get id = some p)
    (hnew : ¬(target ∈ p.peers ∧ source ∉ p.peers))
    (hpeers : PartitionIndex.swapPeer p.peers source target ≠ []) :
    pd.applyCommand (.MigratePartition ⟨id, source, target⟩)
      = .ok (.PartitionMigrated (PartitionIndex.swapPeer p.peers source target),
        { pd with partitions := pd.partitions.withMigrated ⟨id, source, target⟩ p }) := by
  have hget : pd.partitions.partitions.get id = some p := hp
  simp only [PdState.applyCommand, PartitionIndex.applyMigrate, hget, if_neg hnew, if_neg hpeers]
  rfl

lemma bumps_withMigrated (hp : pd.partitions.get id = some p) :
    Bumps pd { pd with partitions := pd.partitions.withMigrated ⟨id, source, target⟩ p } id := by
  refine ⟨p, PartitionIndex.migrated p ⟨id, source, target⟩, hp, ?_, rfl⟩
  simp [PartitionIndex.get, PartitionIndex.withMigrated]

end Accepted

/-! ## Executing an operation -/

/-- The push that follows an applied proposal is answered with success. -/
def pushAnswered (w : World) (entry : PdEntry) (o : Outcome)
    (onResult : ApplyResult → Option (World → Option World)) : Bool :=
  match w.pd.applyCommand entry with
  | .error _ => true
  | .ok (result, _) => (onResult result).all fun push => (o.push.send push (w.next entry)).1

/-- The proposal fails without taking effect, or it is accepted and the push is answered. -/
def SettlesProposal (w : World) (entry : PdEntry) (o : Outcome) (accepts : Bool)
    (onResult : ApplyResult → Option (World → Option World)) : Prop :=
  match o.proposal with
  | .failed took => took = false
  | .ok => accepts = true ∧ pushAnswered w entry o onResult = true

instance (w : World) (entry : PdEntry) (o : Outcome) (accepts : Bool)
    (onResult : ApplyResult → Option (World → Option World)) :
    Decidable (SettlesProposal w entry o accepts onResult) := by
  unfold SettlesProposal
  cases o.proposal <;> infer_instance

/-- The operation ends with an error that left the route alone, or with a change of it. -/
def SettlesKind (w : World) (p : MetaPartition) (o : Outcome) : OpKind → Prop
  | .Split =>
    match o.suggested with
    | .failed => True
    | .deferred => False
    | .boundary bound =>
      SettlesProposal (w.advance o.between) (.SplitPartition ⟨p.partitionId, bound⟩) o
        (acceptsSplit (w.advance o.between).pd p.partitionId bound) (splitPush p bound)
  | .Migrate source target =>
    SettlesProposal (w.advance o.between) (.MigratePartition ⟨p.partitionId, source, target⟩) o
      (acceptsMigrate (w.advance o.between).pd p.partitionId source target)
      (migratePush p source target)

instance (w : World) (p : MetaPartition) (o : Outcome) (kind : OpKind) :
    Decidable (SettlesKind w p o kind) := by
  cases kind with
  | Split =>
    unfold SettlesKind
    cases o.suggested <;> simp only <;> infer_instance
  | Migrate source target => unfold SettlesKind; infer_instance

/-- An operation of a sweep settles, and the route epochs have room meanwhile. -/
def Settles (script : PartitionId → Outcome) (s : Sched) (op : PartitionOp) : Prop :=
  let o := script op.partitionId
  let w := s.world.advance o.before
  Throughout PdState.next RouteRoom s.world.pd (o.before ++ o.between)
    ∧ ∀ p ∈ w.pd.partitions.get op.partitionId, SettlesKind w p o op.kind

instance (script : PartitionId → Outcome) (s : Sched) (op : PartitionOp) :
    Decidable (Settles script s op) := by
  unfold Settles
  infer_instance

/-- What a settled execution is: an error without a change, or a change with success. -/
structure Settled (pd : PdState) (id : PartitionId) (executed : Executed) : Prop where
  keyed : executed.world.pd.partitions.Keyed
  grows : Grows pd executed.world.pd
  settled : (executed.ok = false ∧ executed.changed = false) ∨
    (executed.ok = true ∧ executed.changed = true
      ∧ ∃ p p', pd.partitions.get id = some p ∧ executed.world.pd.partitions.get id = some p'
        ∧ p.epoch.toNat < p'.epoch.toNat)

section Execute

variable {w : World} {p : MetaPartition} {o : Outcome}

/-- A push leaves PD's state alone. -/
def KeepsPd (push : World → Option World) : Prop := ∀ w w', push w = some w' → w'.pd = w.pd

lemma pd_send {push : World → Option World} (hpush : KeepsPd push) (answer : Answer) (w : World) :
    (answer.send push w).2.pd = w.pd := by
  unfold Answer.send
  cases hsent : push w with
  | none => rfl
  | some pushed =>
    cases answer with
    | ok => exact hpush w pushed hsent
    | failed took =>
      cases took with
      | true => exact hpush w pushed hsent
      | false => rfl

lemma keepsPd_applySplit (p : MetaPartition) (child : PartitionId) (bound : PartitionBound) :
    KeepsPd fun w => w.applySplit p child bound := by
  intro w w' h
  obtain ⟨group, -, rfl⟩ := Option.map_eq_some_iff.mp h
  cases group.range.split (bound.bucket, bound.routingKey) with
  | none => rfl
  | some halves => cases w.groups.get child <;> rfl

lemma keepsPd_migrate (p : MetaPartition) (source target : NodeId) :
    KeepsPd fun w =>
      w.migrateGroupMember ((w.pd.partitions.get p.partitionId).getD p) source target := by
  intro w w' h
  simp only [World.migrateGroupMember] at h
  split_ifs at h
  obtain ⟨group, -, rfl⟩ := Option.map_eq_some_iff.mp h
  rfl

/-- A proposal that is accepted, if the state machine does not fail, settles. -/
lemma settled_drive {entry : PdEntry} {id : PartitionId} {accepts : Bool}
    {onResult : ApplyResult → Option (World → Option World)}
    (hkeyed : w.pd.partitions.Keyed) (hroom : RouteRoom w.pd)
    (haccepted : accepts = true → (∃ err, w.pd.applyCommand entry = .error err)
      ∨ ∃ result pd' push, w.pd.applyCommand entry = .ok (result, pd')
        ∧ (∀ reason, result ≠ .Rejected reason) ∧ onResult result = some push ∧ KeepsPd push
        ∧ Bumps w.pd pd' id)
    (h : SettlesProposal w entry o accepts onResult) :
    Settled w.pd id (drive w entry id o onResult) := by
  rw [SettlesProposal] at h
  rw [drive]
  cases hproposal : o.proposal with
  | failed took =>
    rw [hproposal] at h
    simp only at h
    subst h
    exact ⟨hkeyed, .refl _, Or.inl ⟨rfl, rfl⟩⟩
  | ok =>
    rw [hproposal] at h
    obtain ⟨haccept, hpush⟩ := h
    rcases haccepted haccept with ⟨err, herr⟩ | ⟨result, pd', push, hok, hnot, hon, hkeeps, hbumps⟩
    · simp only [herr]
      exact ⟨hkeyed, .refl _, Or.inl ⟨rfl, rfl⟩⟩
    · rw [show pd' = w.pd.next entry from (PdState.next_of_ok hok).symm] at hbumps
      have hanswered : (o.push.send push (w.next entry)).1 = true := by
        simpa [pushAnswered, hok, hon] using hpush
      have hpd := pd_send hkeeps o.push (w.next entry)
      have hdrive : Settled w.pd id ⟨(o.push.send push (w.next entry)).1,
          (o.push.send push (w.next entry)).2, changesRoute w.pd entry id⟩ := by
        refine ⟨?_, ?_, Or.inr ⟨hanswered, hbumps.changesRoute, ?_⟩⟩
        · show (o.push.send push (w.next entry)).2.pd.partitions.Keyed
          rw [hpd]
          exact keyed_next hkeyed entry
        · show Grows w.pd (o.push.send push (w.next entry)).2.pd
          rw [hpd]
          exact grows_next hkeyed hroom entry
        · show ∃ p p', _ ∧ (o.push.send push (w.next entry)).2.pd.partitions.get id = some p' ∧ _
          rw [hpd]
          exact hbumps.lt hroom
      cases result with
      | Rejected reason => exact absurd rfl (hnot reason)
      | _ =>
        simp only [hok, hon]
        exact hdrive

lemma settled_execute (hkeyed : w.pd.partitions.Keyed) {kind : OpKind}
    (hroom : Throughout PdState.next RouteRoom w.pd o.between) (h : SettlesKind w p o kind) :
    ∃ pd, Grows w.pd pd ∧ Settled pd p.partitionId (execute w p o kind) := by
  obtain ⟨hkeyed', hgrows, hlast⟩ := grows_run hkeyed hroom
  cases kind with
  | Split =>
    rw [SettlesKind] at h
    rw [execute, executeSplit]
    cases hsuggested : o.suggested with
    | failed => exact ⟨w.pd, .refl _, hkeyed, .refl _, Or.inl ⟨rfl, rfl⟩⟩
    | deferred => rw [hsuggested] at h; exact h.elim
    | boundary bound =>
      rw [hsuggested] at h
      refine ⟨_, hgrows, settled_drive hkeyed' hlast (fun haccept => ?_) h⟩
      obtain ⟨q, hq, hinside⟩ := exists_of_any haccept
      rcases applyCommand_split hq hinside with herr | ⟨tag, hok⟩
      · exact Or.inl herr
      · exact Or.inr ⟨_, _, _, hok, fun reason => by simp, rfl, keepsPd_applySplit _ _ _,
          bumps_withSplit hkeyed' hq⟩
  | Migrate source target =>
    rw [SettlesKind] at h
    refine ⟨_, hgrows, settled_drive hkeyed' hlast (fun haccept => ?_) h⟩
    obtain ⟨q, hq, hswap⟩ := exists_of_any haccept
    obtain ⟨hnew, hpeers⟩ := of_decide_eq_true hswap
    exact Or.inr ⟨_, _, _, applyCommand_migrate hq hnew hpeers, fun reason => by simp, rfl,
      keepsPd_migrate _ _ _, bumps_withMigrated hq⟩

end Execute

/-! ## A sweep -/

/-- The operation changed the route epoch it started from. -/
def MovedOn (pd : PdState) (op : PartitionOp) : Prop :=
  ∃ p, pd.partitions.get op.partitionId = some p ∧ op.originEpoch.toNat < p.epoch.toNat

/-- The operation started from the present epoch or an earlier one. -/
def Due (pd : PdState) (op : PartitionOp) : Prop :=
  ∃ p, pd.partitions.get op.partitionId = some p ∧ op.originEpoch.toNat ≤ p.epoch.toNat

variable {pd pd' : PdState} {op : PartitionOp}

lemma MovedOn.grows (h : MovedOn pd op) (hgrows : Grows pd pd') :
    MovedOn pd' op := by
  obtain ⟨p, hp, hlt⟩ := h
  obtain ⟨p', hp', hle⟩ := hgrows _ p hp
  exact ⟨p', hp', hlt.trans_le hle⟩

lemma Due.grows (h : Due pd op) (hgrows : Grows pd pd') :
    Due pd' op := by
  obtain ⟨p, hp, hle'⟩ := h
  obtain ⟨p', hp', hle⟩ := hgrows _ p hp
  exact ⟨p', hp', hle'.trans hle⟩

/-- A sweep with the operations `rest` still to execute: registered are these and the ones that changed a
route, and the latter have moved on. -/
structure Midway (limit : ℕ) (s : Sched) (rest : List PartitionOp) : Prop where
  keyed : s.world.pd.partitions.Keyed
  booked : Booked s.controller (s.changed ++ rest)
  limit : s.controller.maxConcurrentMigrations = limit
  moved : ∀ op ∈ s.changed, MovedOn s.world.pd op
  due : ∀ op ∈ rest, Due s.world.pd op

section Sweep

variable {limit : ℕ} {s : Sched} {rest : List PartitionOp} {op : PartitionOp}

variable {script : PartitionId → Outcome} {partitions : PartitionIndex} {c : OperatorController}
  {id : PartitionId}

theorem Midway.executeOp (h : Midway limit s (op :: rest)) (hsettles : Settles script s op) :
    Midway limit (executeOp script s op) rest := by
  obtain ⟨hroom, hkind⟩ := hsettles
  obtain ⟨hbefore, hbetween⟩ := throughout_append.mp hroom
  obtain ⟨hkeyed, hgrows, -⟩ := grows_run h.keyed hbefore
  obtain ⟨p, hp, hle⟩ := (h.due op List.mem_cons_self).grows hgrows
  have hget : (s.world.advance (script op.partitionId).before).pd.partitions.get op.partitionId
      = some p := hp
  obtain ⟨pd, hgrows', hsettled⟩ := settled_execute
    (w := s.world.advance (script op.partitionId).before) hkeyed hbetween (hkind p hget)
  rw [hkeyed.partitionId hget] at hsettled
  have hall := hgrows.trans (hgrows'.trans hsettled.grows)
  rw [Pd.executeOp]
  simp only [hget]
  generalize execute (s.world.advance (script op.partitionId).before) p
    (script op.partitionId) op.kind = executed at hsettled hall ⊢
  have hdue : ∀ op' ∈ rest, Due executed.world.pd op' :=
    fun op' hop' => (h.due op' (List.mem_cons_of_mem op hop')).grows hall
  have hmoved : ∀ op' ∈ s.changed, MovedOn executed.world.pd op' :=
    fun op' hop' => (h.moved op' hop').grows hall
  rcases hsettled.settled with ⟨hok, hchanged⟩ | ⟨hok, hchanged, q, q', hq, hq', hlt⟩
  · simp only [hok, hchanged, Bool.false_eq_true, if_false]
    exact ⟨hsettled.keyed, h.booked.complete, h.limit, hmoved, hdue⟩
  · simp only [hok, hchanged, if_true]
    refine ⟨hsettled.keyed, ?_, h.limit, ?_, hdue⟩
    · simpa using h.booked
    · intro op' hop'
      rcases List.mem_append.mp hop' with hop' | hop'
      · exact hmoved op' hop'
      · rw [List.mem_singleton.mp hop']
        obtain ⟨r, hr, hpr⟩ := hgrows' _ p hget
        rw [hq] at hr
        cases hr
        exact ⟨q', hq', by omega⟩

/-- The loop over the admitted operations. -/
lemma Midway.loop (h : Midway limit s rest)
    (hsettles : Along (Pd.executeOp script) (Settles script) s rest) :
    Midway limit (run (Pd.executeOp script) s rest) [] := by
  induction rest generalizing s with
  | nil => exact h
  | cons op rest ih => exact ih (h.executeOp hsettles.1) hsettles.2

/-- A slot that is not cleared holds an operation of the present epoch. -/
lemma get_clearSlot {pid : PartitionId} (h : (clearSlot partitions c pid).slots.get id = some op) :
    c.slots.get id = some op
      ∧ (id = pid → ∃ p, partitions.get id = some p ∧ op.originEpoch = p.epoch) := by
  rw [clearSlot] at h
  cases hget : partitions.get pid with
  | none =>
    simp only [hget, OperatorController.complete, OrdMap.get_erase] at h
    split_ifs at h with hid
    exact ⟨h, fun heq => absurd heq.symm hid⟩
  | some p =>
    simp only [hget] at h
    by_cases hstale : c.isStale pid p.epoch = true
    · simp only [hstale, if_true, OperatorController.complete, OrdMap.get_erase] at h
      split_ifs at h with hid
      exact ⟨h, fun heq => absurd heq.symm hid⟩
    · simp only [hstale, Bool.false_eq_true, if_false] at h
      refine ⟨h, fun heq => ?_⟩
      subst heq
      refine ⟨p, hget, ?_⟩
      simpa [OperatorController.isStale, h] using hstale

lemma get_clearSlots {pids : List PartitionId}
    (h : (pids.foldl (clearSlot partitions) c).slots.get id = some op) :
    c.slots.get id = some op
      ∧ (id ∈ pids → ∃ p, partitions.get id = some p ∧ op.originEpoch = p.epoch) := by
  induction pids generalizing c with
  | nil => exact ⟨h, fun hid => absurd hid List.not_mem_nil⟩
  | cons pid pids ih =>
    obtain ⟨hget, hrest⟩ := ih h
    obtain ⟨hget', hpid⟩ := get_clearSlot hget
    refine ⟨hget', fun hid => ?_⟩
    rcases List.mem_cons.mp hid with heq | hid
    · exact hpid heq
    · exact hrest hid

/-- When everything registered has moved on, a sweep begins with an empty controller. -/
lemma Midway.clearStale (h : Midway limit s []) :
    (clearStale s.world.pd.partitions s.controller).slots = .empty := by
  have hbooked := h.booked
  rw [List.append_nil] at hbooked
  refine OrdMap.ext_get fun id => ?_
  rw [OrdMap.get_empty]
  cases hget : (Pd.clearStale s.world.pd.partitions s.controller).slots.get id with
  | none => rfl
  | some op =>
    obtain ⟨hslot, hstale⟩ := get_clearSlots hget
    obtain ⟨hop, rfl⟩ := (hbooked.get_iff id op).mp hslot
    have hmem : op.partitionId ∈ s.controller.running.map PartitionOp.partitionId :=
      List.mem_map_of_mem (hbooked.mem_running_iff.mpr hop)
    obtain ⟨p, hp, hepoch⟩ := hstale hmem
    obtain ⟨p', hp', hlt⟩ := h.moved op hop
    rw [hp] at hp'
    cases hp'
    rw [hepoch] at hlt
    exact absurd hlt (lt_irrefl _)

lemma maxConcurrentMigrations_clearStale (partitions : PartitionIndex) (c : OperatorController) :
    (Pd.clearStale partitions c).maxConcurrentMigrations = c.maxConcurrentMigrations := by
  have hslots : ∀ (pids : List PartitionId) (c : OperatorController),
      (pids.foldl (clearSlot partitions) c).maxConcurrentMigrations = c.maxConcurrentMigrations := by
    intro pids
    induction pids with
    | nil => exact fun _ => rfl
    | cons pid pids ih =>
      intro c
      rw [List.foldl_cons, ih, clearSlot]
      cases partitions.get pid with
      | none => rfl
      | some p =>
        simp only
        split_ifs <;> rfl
  exact hslots _ _

lemma maxConcurrentMigrations_admitOps (c : OperatorController) (splits : List SplitDecision)
    (migrations : List MigrateDecision) :
    (c.admitOps splits migrations).1.maxConcurrentMigrations = c.maxConcurrentMigrations := by
  have hmigrations : ∀ (l : List MigrateDecision) (acc : OperatorController × List PartitionOp),
      (l.foldl admitMigration acc).1.maxConcurrentMigrations
        = acc.1.maxConcurrentMigrations := by
    intro l
    induction l with
    | nil => exact fun _ => rfl
    | cons m l ih =>
      intro acc
      rw [List.foldl_cons, ih, admitMigration]
      split_ifs <;> rfl
  have hsplits : ∀ (l : List SplitDecision) (acc : OperatorController × List PartitionOp),
      (l.foldl admitSplit acc).1.maxConcurrentMigrations = acc.1.maxConcurrentMigrations := by
    intro l
    induction l with
    | nil => exact fun _ => rfl
    | cons d l ih =>
      intro acc
      rw [List.foldl_cons, ih, admitSplit]
      split_ifs <;> rfl
  rw [OperatorController.admitOps, hsplits, hmigrations]

/-- An admitted operation starts from the present epoch of its partition. -/
lemma due_of_admitted {cfg : SchedulerConfig} {totalBytes : PartitionId → Option UInt64}
    (hkeyed : s.world.pd.partitions.Keyed) (h : op ∈ (admitted cfg totalBytes s).2) :
    Due s.world.pd op := by
  have hload : ∃ load ∈ gatherLoads s.world.pd.partitions.list totalBytes,
      op.partitionId = load.partitionId ∧ op.originEpoch = load.epoch := by
    rcases mem_admitOps h with ⟨m, hm, rfl⟩ | ⟨d, hd, rfl⟩
    · obtain ⟨load, hload, hid, hepoch, -⟩ := mem_planMigrations hm
      exact ⟨load, hload, hid, hepoch⟩
    · exact mem_planSplits hd
  obtain ⟨load, hload, hid, hepoch⟩ := hload
  obtain ⟨p, hp, rfl⟩ := List.mem_map.mp hload
  obtain ⟨⟨id, p'⟩, hmem, rfl⟩ := List.mem_map.mp hp
  have hget : s.world.pd.partitions.get id = some p' := (OrdMap.mem_toList_iff _ _ _).mp hmem
  refine ⟨p', ?_, by rw [hepoch]⟩
  rw [hid]
  show s.world.pd.partitions.get p'.partitionId = some p'
  rw [hkeyed.partitionId hget]
  exact hget

/-- The first half of a sweep. -/
lemma Midway.start (h : Midway limit s []) (cfg : SchedulerConfig)
    (totalBytes : PartitionId → Option UInt64) :
    Midway limit (startSweep cfg totalBytes s) (admitted cfg totalBytes s).2 := by
  refine ⟨h.keyed, ?_, ?_, fun op hop => absurd hop List.not_mem_nil, fun op hop =>
    due_of_admitted (s := s) h.keyed hop⟩
  · exact booked_admitOps h.clearStale _ _
  · show (admitted cfg totalBytes s).1.maxConcurrentMigrations = limit
    rw [admitted, maxConcurrentMigrations_admitOps, maxConcurrentMigrations_clearStale, h.limit]

end Sweep

/-! ## Runs -/

inductive SchedEvent
  | entry (entry : PdEntry)
  | createRaftGroup (id : PartitionId)
  | sweep (totalBytes : PartitionId → Option UInt64) (script : PartitionId → Outcome)

namespace Sched

/-- Before the first entry, as `spawn_meta_scheduler` starts. -/
def new (cfg : SchedulerConfig) : Sched :=
  ⟨⟨.new, .empty⟩, .new cfg.maxConcurrentMigrations, []⟩

def step (cfg : SchedulerConfig) (s : Sched) : SchedEvent → Sched
  | .entry entry => { s with world := s.world.next entry }
  | .createRaftGroup id => { s with world := s.world.createRaftGroup id }
  | .sweep totalBytes script => sweep cfg totalBytes script s

/-- Every operation of a sweep settles, and no entry wraps a route epoch. -/
def EventSettles (cfg : SchedulerConfig) (s : Sched) : SchedEvent → Prop
  | .entry _ => RouteRoom s.world.pd
  | .createRaftGroup _ => True
  | .sweep totalBytes script =>
    Along (executeOp script) (Settles script) (startSweep cfg totalBytes s)
      (admitted cfg totalBytes s).2

instance (cfg : SchedulerConfig) (s : Sched) (event : SchedEvent) :
    Decidable (s.EventSettles cfg event) := by
  cases event <;> simp only [EventSettles] <;> infer_instance

variable {cfg : SchedulerConfig}

lemma pd_createRaftGroup (w : World) (id : PartitionId) : (w.createRaftGroup id).pd = w.pd := by
  unfold World.createRaftGroup
  split <;> rfl

lemma midway_new : Midway cfg.maxConcurrentMigrations (new cfg) [] := by
  refine ⟨keyed_new, booked_empty rfl, rfl, ?_, ?_⟩ <;>
    exact fun op hop => absurd hop List.not_mem_nil

lemma midway_step {s : Sched} {event : SchedEvent} (h : Midway cfg.maxConcurrentMigrations s [])
    (hsettles : s.EventSettles cfg event) :
    Midway cfg.maxConcurrentMigrations (s.step cfg event) [] := by
  cases event with
  | entry entry =>
    exact ⟨keyed_next h.keyed entry, h.booked, h.limit,
      fun op hop => (h.moved op hop).grows (grows_next h.keyed hsettles entry),
      fun op hop => absurd hop List.not_mem_nil⟩
  | createRaftGroup id =>
    have hpd := pd_createRaftGroup s.world id
    refine ⟨?_, h.booked, h.limit, fun op hop => ?_, fun op hop => absurd hop List.not_mem_nil⟩
    · show (s.world.createRaftGroup id).pd.partitions.Keyed
      rw [hpd]
      exact h.keyed
    · show MovedOn (s.world.createRaftGroup id).pd op
      rw [hpd]
      exact h.moved op hop
  | sweep totalBytes script => exact (h.start cfg totalBytes).loop hsettles

/-- In every run of entries and sweeps whose operations settle, and in every state of it: the registered
operations are the ones that changed a route since the last sweep began, what is left of the budget is what their
migrations leave of it, and the next sweep admits every partition it plans. -/
theorem slots_follow_changes (events : List SchedEvent)
    (h : Along (step cfg) (EventSettles cfg) (new cfg) events) (n : ℕ) :
    let s := run (step cfg) (new cfg) (events.take n)
    (∀ op, op ∈ s.controller.running ↔ op ∈ s.changed)
      ∧ (∀ op ∈ s.changed, MovedOn s.world.pd op)
      ∧ s.controller.maxConcurrentMigrations - s.controller.runningMigrations
        = cfg.maxConcurrentMigrations - (s.changed.filter PartitionOp.isMigrate).length
      ∧ ∀ totalBytes,
        (∀ m ∈ plannedMigrations cfg totalBytes s.world.pd,
          Covers (admitted cfg totalBytes s).2 m.partitionId)
        ∧ ∀ d ∈ plannedSplits cfg totalBytes s.world.pd,
          Covers (admitted cfg totalBytes s).2 d.parentId := by
  intro s
  have hmid : Midway cfg.maxConcurrentMigrations s [] :=
    Along.invariant (P := fun s => Midway cfg.maxConcurrentMigrations s [])
      (fun s event hs hevent => midway_step hs hevent) midway_new (h.take n)
  have hbooked := hmid.booked
  rw [List.append_nil] at hbooked
  refine ⟨fun op => hbooked.mem_running_iff, hmid.moved, ?_, fun totalBytes => ?_⟩
  · rw [hmid.limit, hbooked.runningMigrations_eq]
  · refine admitted_of_planned hmid.clearStale ?_
    rw [maxConcurrentMigrations_clearStale, hmid.limit]
    exact length_planMigrations_le _ _ _

/-- Four metadata nodes, a partition on the first three and its group; then the first node is lost. -/
def evacuating : List SchedEvent :=
  [.entry (.RegisterNode ⟨"n1", "az", "r1", .META⟩), .entry (.RegisterNode ⟨"n2", "az", "r2", .META⟩),
    .entry (.RegisterNode ⟨"n3", "az", "r3", .META⟩), .entry (.RegisterNode ⟨"n4", "az", "r4", .META⟩),
    .entry (.UpdateNodeStatus ⟨2, .Live⟩), .entry (.UpdateNodeStatus ⟨3, .Live⟩),
    .entry (.UpdateNodeStatus ⟨4, .Live⟩),
    .entry (.CreatePartition ⟨.Flat, .unboundedStart, .unboundedEnd, [1, 2, 3]⟩),
    .createRaftGroup 1, .entry (.UpdateNodeStatus ⟨1, .Offline⟩)]

/-- Nothing happens meanwhile and every call is answered. -/
def answered (suggested : Suggestion) : Outcome := ⟨[], suggested, [], .ok, .ok⟩

/-- One sweep moves the replica of the lost node. -/
def evacuated : List SchedEvent :=
  evacuating ++ [.sweep (fun _ => none) fun _ => answered .deferred]

/-- Splits above one byte, one migration at a time. -/
def tightConfig : SchedulerConfig := ⟨1, 1, 0.2⟩

theorem slots_follow_changes_demo :
    (run (step tightConfig) (new tightConfig) evacuated).changed
        = [⟨1, .Migrate 1 4, 1, .Evacuate⟩]
      ∧ (run (step tightConfig) (new tightConfig) evacuated).controller.maxConcurrentMigrations
          - (run (step tightConfig) (new tightConfig) evacuated).controller.runningMigrations
        = 1 - 1 := by
  have hsettles : Along (step tightConfig) (EventSettles tightConfig) (new tightConfig) evacuated := by
    decide +kernel
  have hchanged : (run (step tightConfig) (new tightConfig) evacuated).changed
      = [⟨1, .Migrate 1 4, 1, .Evacuate⟩] := by decide +kernel
  have hbudget := (slots_follow_changes evacuated hsettles evacuated.length).2.2.1
  rw [List.take_length] at hbudget
  rw [hbudget, hchanged]
  exact ⟨rfl, rfl⟩

/-- Splits above one byte, no migrations. -/
def splitsOnly : SchedulerConfig := ⟨1, 0, 0.2⟩

/-- A partition on a live node, with its group. -/
def onePartition : List SchedEvent :=
  [.entry (.RegisterNode ⟨"n1", "az", "r1", .META⟩), .entry (.UpdateNodeStatus ⟨1, .Live⟩),
    .entry (.CreatePartition ⟨.Flat, .unboundedStart, .unboundedEnd, [1]⟩), .createRaftGroup 1]

/-- The partition is over the limit and its group defers the split once.  The slot stays although the route epoch
did not move, and the next sweep, and the one after it, plan the split and admit nothing. -/
theorem deferred_split_blocks_partition :
    let bytes : PartitionId → Option UInt64 := fun _ => some 2
    let s := run (step splitsOnly) (new splitsOnly)
      (onePartition ++ [.sweep bytes fun _ => answered .deferred])
    let later := s.step splitsOnly (.sweep bytes fun _ => answered (.boundary (.at' 7 [1])))
    s.changed = [] ∧ s.controller.running = [⟨1, .Split, 1, .Split⟩]
      ∧ (s.world.pd.partitions.get 1).map MetaPartition.epoch = some 1
      ∧ plannedSplits splitsOnly bytes s.world.pd = [⟨1, 1⟩]
      ∧ (admitted splitsOnly bytes s).2 = []
      ∧ plannedSplits splitsOnly bytes later.world.pd = [⟨1, 1⟩]
      ∧ (admitted splitsOnly bytes later).2 = [] := by
  decide +kernel

end Sched

end Epoch.Pd
