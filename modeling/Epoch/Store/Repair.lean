import Epoch.Store.LateCreate

/-!
# Repair of a shard in place (`shard_repair.rs`, `roles/repair.rs`)

A repair creates a second extent for the shard's slot, fills it with rebuilt bodies, promotes it and
asks PD to rebind the slot.  The creation binds the slot to the new extent at once, in the local
index, so that everything the old extent holds is unreadable until it has been rebuilt; when the
attempt stops before, the next orphan sweep removes the old extent
(`stopped_repair_hides_blobs`).

`repair_keeps_readable` says when a repair is harmless: each attempt creates nothing, finds its extent
installed, or rebuilds everything that was readable before it stops.
-/

namespace Epoch

/-- One run of `ShardRepairTask`. -/
structure RepairAttempt where
  jobId : UInt64
  -- the blobs in order, with what could be rebuilt from the survivors
  rebuilt : List (BlobId × Option Bytes)
  -- the backend calls that succeed
  stop : ℕ
deriving DecidableEq

inductive RepairStep
  | repair (attempt : RepairAttempt)
  | sweep (ratioPercent : UInt8) (perSweep : ℕ) (clock : ExtentId → Int64)

variable {x : UInt64}

/-- The slot of a shard id does not depend on its 24 low bits. -/
lemma and_slotMask_of_lt (h : x < 0x1000000) : x &&& 0xFFFFFFFFFF000000 = 0 := by
  have hx : x.toNat < 2 ^ 24 := by
    rw [UInt64.lt_iff_toNat_lt] at h
    exact h
  apply UInt64.toNat_inj.mp
  rw [UInt64.toNat_and]
  apply Nat.eq_of_testBit_eq
  intro i
  rw [Nat.testBit_and]
  by_cases hi : i < 24
  · have hmask : (0xFFFFFFFFFF000000 : UInt64).toNat.testBit i = false := by
      interval_cases i <;> decide
    rw [hmask, Bool.and_false]
    simp
  · have hpow : x.toNat < 2 ^ i :=
      lt_of_lt_of_le hx (Nat.pow_le_pow_right (by decide) (not_lt.mp hi))
    rw [Nat.testBit_lt_two_pow hpow]
    simp

lemma shardPrefix_or (shard : ShardId) (h : x < 0x1000000) :
    shardPrefix (shardPrefix shard ||| x) = shardPrefix shard := by
  have hlow := congrArg UInt64.toNat (and_slotMask_of_lt h)
  unfold shardPrefix
  apply UInt64.toNat_inj.mp
  rw [UInt64.toNat_and] at hlow
  rw [UInt64.toNat_and, UInt64.toNat_or, Nat.and_or_distrib_right, hlow, ← UInt64.toNat_and,
    UInt64.and_assoc, UInt64.and_self]
  exact Nat.or_zero _

namespace StorageEngine

/-- `ensure_rebuild_extent`: the next epoch of the slot, stamped with the job. -/
def rebuildExtent (shard : ShardId) (jobId : UInt64) : Option ExtentId :=
  if (shard &&& 0xFFFFFF) + 1 < 0x1000000 then
    some ⟨shardPrefix shard ||| ((shard &&& 0xFFFFFF) + 1),
      Int64.ofNat (max 1 (min jobId.toNat (2 ^ 63 - 1)))⟩
  else none

section

variable (crc32c : Bytes → UInt32)

/-- `write_rebuilt` for one blob after the other, up to the first that cannot be rebuilt or
written. -/
def writeRebuilt (extent : ExtentId) :
    StorageEngine → List (BlobId × Option Bytes) → StorageEngine × Bool
  | engine, [] => (engine, true)
  | engine, (_, none) :: _ => (engine, false)
  | engine, (blob, some body) :: rest =>
    match (writePlan crc32c engine extent blob body).2 with
    | .ok _ =>
      writeRebuilt extent (engine.performAll (writePlan crc32c engine extent blob body).1) rest
    | .error _ => (engine, false)

/-- `ShardRepairTask::run`; the rebind at PD changes nothing here. -/
def repairShard (shard : ShardId) (engine : StorageEngine) (attempt : RepairAttempt) :
    StorageEngine :=
  match rebuildExtent shard attempt.jobId with
  | none => engine
  | some extent =>
    if attempt.stop = 0 then engine
    else
      let engine := engine.performAll
        (engine.createPlan extent.shardId extent.createTs .Rebuilding)
      let written := writeRebuilt crc32c extent engine (attempt.rebuilt.take (attempt.stop - 1))
      if written.2 ∧ attempt.rebuilt.length + 1 < attempt.stop then
        written.1.performAll (written.1.promotePlan extent)
      else written.1

def repairStep (shard : ShardId) (engine : StorageEngine) : RepairStep → StorageEngine
  | .repair attempt => engine.repairShard crc32c shard attempt
  | .sweep ratioPercent perSweep clock => engine.sweep crc32c ratioPercent perSweep clock

end

/-- All of the blobs are rebuilt, and they fit into an extent file. -/
def Fits : ℕ → List (BlobId × Option Bytes) → Prop
  | _, [] => True
  | _, (_, none) :: _ => False
  | start, (_, some body) :: rest =>
    body.length < 2 ^ 32 ∧ start + recordOnDiskLen (UInt32.ofNat body.length) < 2 ^ 63
      ∧ Fits (start + recordOnDiskLen (UInt32.ofNat body.length)) rest

/-- The condition on a step: a repair stops before it creates its extent, or finds it installed, or
rebuilds every live blob, with the same body, before it stops. -/
def Restores (shard : ShardId) (engine : StorageEngine) : RepairStep → Prop
  | .repair attempt =>
    attempt.stop = 0 ∨ ∀ extent ∈ rebuildExtent shard attempt.jobId,
      ((engine.files.get extent).isSome ∧ (engine.index.getExtentMeta extent).isSome)
        ∨ Fits EXTENT_HEADER_LEN (attempt.rebuilt.take (attempt.stop - 1))
          ∧ ∀ source, engine.index.getShardBinding shard = some source →
              ∀ blob body, Live engine source blob body →
                (attempt.rebuilt.take (attempt.stop - 1)).find? (fun b => b.1 = blob)
                  = some (blob, some body)
  | .sweep _ _ _ => True

lemma shardPrefix_rebuildExtent {shard : ShardId} {jobId : UInt64} {extent : ExtentId}
    (h : rebuildExtent shard jobId = some extent) :
    shardPrefix extent.shardId = shardPrefix shard := by
  unfold rebuildExtent at h
  split_ifs at h with hlt
  rw [← Option.some.inj h]
  exact shardPrefix_or shard hlt

/-! ## What was live stays live -/

/-- Everything live is still live. -/
structure Retains (slot : UInt64) (engine : StorageEngine) (extent : ExtentId)
    (engine' : StorageEngine) (extent' : ExtentId) : Prop where
  serves : Serves engine' slot extent'
  live : ∀ blob body, Live engine extent blob body → Live engine' extent' blob body

variable {engine engine' engine'' : StorageEngine} {extent extent' extent'' : ExtentId}
  {slot : UInt64}

lemma Carries.retains (h : Carries slot engine extent engine' extent') :
    Retains slot engine extent engine' extent' := ⟨h.serves, h.live⟩

lemma Retains.trans (h : Retains slot engine extent engine' extent')
    (h' : Retains slot engine' extent' engine'' extent'') :
    Retains slot engine extent engine'' extent'' :=
  ⟨h'.serves, fun blob body hlive => h'.live blob body (h.live blob body hlive)⟩

section

variable (crc32c : Bytes → UInt32)

/-- A write changes nothing that is live. -/
lemma Serves.retains_write (h : Serves engine slot extent) (target : ExtentId) (blob : BlobId)
    (body : Bytes) :
    Retains slot engine extent
      (engine.performAll (writePlan crc32c engine target blob body).1) extent := by
  rcases writePlan_cases crc32c engine target blob body with
    ⟨err, hplan⟩ | ⟨-, -, ⟨entry, -, hplan⟩ | ⟨f, hget, hfile, hacc, hplan⟩⟩
  · rw [hplan]
    exact h.carries.retains
  · rw [hplan]
    exact h.carries.retains
  · rw [hplan]
    by_cases htarget : target = extent
    · subst htarget
      refine ⟨h.appendPlan crc32c f _, fun blob' body' hlive => ?_⟩
      refine hlive.appendPlan crc32c hfile hacc ?_
      intro heq
      obtain ⟨entry, r, hreads, -⟩ := hlive
      rw [heq] at hreads
      exact Option.some_ne_none _ (hreads.entry_eq.symm.trans hget)
    · refine (h.carries_performAll ?_ fun a ha => (touches_appendPlan crc32c ha).2 slot).retains
      intro a ha
      rw [(touches_appendPlan crc32c ha).1, List.mem_singleton]
      exact Ne.symm htarget

lemma Tidy.write (h : Tidy engine) (target : ExtentId) (blob : BlobId) (body : Bytes) :
    Tidy (engine.performAll (writePlan crc32c engine target blob body).1) := by
  rcases writePlan_cases crc32c engine target blob body with
    ⟨err, hplan⟩ | ⟨-, hmeta, ⟨entry, -, hplan⟩ | ⟨f, -, hfile, -, hplan⟩⟩
  · rw [hplan]
    exact h
  · rw [hplan]
    exact h
  · rw [hplan]
    exact h.appendPlan crc32c hfile hmeta _

lemma Serves.retains_writeRebuilt (h : Serves engine slot extent) (target : ExtentId)
    (rebuilt : List (BlobId × Option Bytes)) :
    Retains slot engine extent (writeRebuilt crc32c target engine rebuilt).1 extent := by
  induction rebuilt generalizing engine with
  | nil => exact h.carries.retains
  | cons b rest ih =>
    obtain ⟨blob, body⟩ := b
    cases body with
    | none => exact h.carries.retains
    | some body =>
      rw [writeRebuilt]
      cases (writePlan crc32c engine target blob body).2 with
      | ok outcome =>
        have hfirst := h.retains_write crc32c target blob body
        exact hfirst.trans (ih hfirst.serves)
      | error err => exact h.carries.retains

lemma Tidy.writeRebuilt (h : Tidy engine) (target : ExtentId)
    (rebuilt : List (BlobId × Option Bytes)) :
    Tidy (writeRebuilt crc32c target engine rebuilt).1 := by
  induction rebuilt generalizing engine with
  | nil => exact h
  | cons b rest ih =>
    obtain ⟨blob, body⟩ := b
    cases body with
    | none => exact h
    | some body =>
      rw [StorageEngine.writeRebuilt]
      cases (writePlan crc32c engine target blob body).2 with
      | ok outcome => exact ih (h.write crc32c target blob body)
      | error err => exact h

lemma Serves.retains_promote (h : Serves engine slot extent) (target : ExtentId) :
    Retains slot engine extent (engine.performAll (engine.promotePlan target)) extent := by
  unfold promotePlan
  split_ifs
  · by_cases htarget : target = extent
    · subst htarget
      exact (h.carries_setStatus (show ExtentStatus.Writable ≠ .Dropped by decide)).retains
    · refine (h.carries_performAll ?_ ?_).retains
      · intro a ha
        rw [List.mem_singleton.mp ha, EngineAction.touches, List.mem_singleton]
        exact Ne.symm htarget
      · intro a ha
        rw [List.mem_singleton.mp ha]
        exact fun _ => rfl
  · exact h.carries.retains

lemma Tidy.promote (h : Tidy engine) (target : ExtentId) :
    Tidy (engine.performAll (engine.promotePlan target)) := by
  unfold promotePlan
  split_ifs
  · exact h.perform (a := .setExtentStatus target .Writable) trivial
  · exact h

/-! ## A complete rebuild -/

/-- A rebuild extent after some blobs have been written. -/
structure Rebuilt (slot : UInt64) (engine : StorageEngine) (extent : ExtentId) (f : Stream)
    (done : List (BlobId × Bytes)) : Prop where
  serves : Serves engine slot extent
  writer : extent ∈ engine.writers
  status : engine.status extent = some .Rebuilding
  file : engine.files.get extent = some f
  live : ∀ b ∈ done, Live engine extent b.1 b.2
  rest : ∀ blob, blob ∉ done.map Prod.fst → engine.index.getBlob extent blob = none

lemma loadWritableMeta_of_rebuilding (h : engine.status extent = some .Rebuilding) :
    ExtentWriter.loadWritableMeta extent engine.index = .ok () := by
  obtain ⟨m, hm, hst⟩ := Option.map_eq_some_iff.mp h
  rw [ExtentWriter.loadWritableMeta, hm]
  dsimp only
  rw [hst]
  rfl

variable {f : Stream} {done : List (BlobId × Bytes)} {l : List (BlobId × Option Bytes)}

lemma Rebuilt.write {body : Bytes} (h : Rebuilt slot engine extent f done) (blob : BlobId)
    (hlen : body.length < 2 ^ 32)
    (hroom : f.writeOffset + recordOnDiskLen (UInt32.ofNat body.length) < 2 ^ 63) :
    (∃ outcome, (writePlan crc32c engine extent blob body).2 = .ok outcome)
      ∧ ∃ f' done', Rebuilt slot
          (engine.performAll (writePlan crc32c engine extent blob body).1) extent f' done'
        ∧ f'.writeOffset ≤ f.writeOffset + recordOnDiskLen (UInt32.ofNat body.length)
        ∧ (∀ b ∈ done, b ∈ done') ∧ (blob ∉ done.map Prod.fst → (blob, body) ∈ done')
        ∧ ∀ b ∈ done'.map Prod.fst, b ∈ done.map Prod.fst ∨ b = blob := by
  by_cases hmem : blob ∈ done.map Prod.fst
  · obtain ⟨b, hb, rfl⟩ := List.mem_map.mp hmem
    obtain ⟨entry, r, hreads, -⟩ := h.live b hb
    have hplan : writePlan crc32c engine extent b.1 body = ([], .ok .AlreadyExists) := by
      unfold writePlan
      rw [if_neg (not_not.mpr h.writer), loadWritableMeta_of_rebuilding h.status,
        hreads.entry_eq, h.file]
    rw [hplan]
    refine ⟨⟨_, rfl⟩, f, done, h, Nat.le_add_right _ _, fun _ hb => hb, ?_, fun b hb => Or.inl hb⟩
    exact fun hnot => absurd hmem hnot
  · have hacc : f.accepts body = true := by
      rw [Stream.accepts, Bool.and_eq_true, decide_eq_true_eq, decide_eq_true_eq]
      exact ⟨hlen, hroom⟩
    have hplan : writePlan crc32c engine extent blob body
        = (appendPlan crc32c extent f ⟨blob, extent.shardId, body⟩, .ok .Written) := by
      unfold writePlan
      rw [if_neg (not_not.mpr h.writer), loadWritableMeta_of_rebuilding h.status,
        h.rest blob hmem, h.file]
      simp only [if_neg (not_le.mpr hlen), if_pos hacc]
    rw [hplan]
    have hmeta : (engine.index.getExtentMeta extent).isSome := by
      obtain ⟨m, hm, -⟩ := h.serves.own
      simp [hm]
    refine ⟨⟨_, rfl⟩, f ++ [⟨blob, extent.shardId, body⟩], done ++ [(blob, body)], ?_, ?_, ?_, ?_,
      ?_⟩
    · refine ⟨h.serves.appendPlan crc32c f _, ?_, ?_, files_appendPlan crc32c h.file, ?_, ?_⟩
      · rw [writers_performAll (DataNode.unobserved_appendPlan crc32c extent f _)]
        exact h.writer
      · exact (status_perform _ _ _).trans ((status_perform _ _ _).trans h.status)
      · intro b hb
        rcases List.mem_append.mp hb with hb | hb
        · refine (h.live b hb).appendPlan crc32c h.file hacc ?_
          intro heq
          exact hmem (List.mem_map.mpr ⟨b, hb, heq⟩)
        · rw [List.mem_singleton.mp hb]
          exact live_appendPlan crc32c h.file hmeta hacc
      · intro blob' hblob'
        rw [List.map_append, List.mem_append, not_or] at hblob'
        rw [getBlob_appendPlan, if_neg (by simpa using hblob'.2)]
        exact h.rest blob' hblob'.1
    · rw [Stream.writeOffset_append]
      exact le_refl _
    · exact fun b hb => List.mem_append_left _ hb
    · exact fun _ => List.mem_append_right _ List.mem_cons_self
    · intro b hb
      rw [List.map_append, List.mem_append] at hb
      exact hb.imp_right fun hb => by simpa using hb

lemma Fits.mono {start start' : ℕ} (h : Fits start l) (hle : start' ≤ start) : Fits start' l := by
  induction l generalizing start start' with
  | nil => trivial
  | cons b rest ih =>
    obtain ⟨blob, body⟩ := b
    cases body with
    | none => exact h
    | some body =>
      obtain ⟨hlen, hroom, hrest⟩ := h
      exact ⟨hlen, by omega, ih hrest (by omega)⟩

/-- A rebuild that runs to its end holds the first body of every blob. -/
lemma Rebuilt.writeRebuilt (h : Rebuilt slot engine extent f done) (hfits : Fits f.writeOffset l) :
    Serves (writeRebuilt crc32c extent engine l).1 slot extent
      ∧ (∀ b ∈ done, Live (StorageEngine.writeRebuilt crc32c extent engine l).1 extent b.1 b.2)
      ∧ ∀ blob body, blob ∉ done.map Prod.fst →
          l.find? (fun b => b.1 = blob) = some (blob, some body) →
            Live (StorageEngine.writeRebuilt crc32c extent engine l).1 extent blob body := by
  induction l generalizing engine f done with
  | nil => exact ⟨h.serves, h.live, by simp⟩
  | cons b rest ih =>
    obtain ⟨blob₀, body₀⟩ := b
    cases body₀ with
    | none => exact hfits.elim
    | some body₀ =>
      obtain ⟨hlen, hroom, hrest⟩ := hfits
      obtain ⟨⟨outcome, hok⟩, f', done', hstep, hle, hkeep, hnew, hids⟩ :=
        h.write crc32c blob₀ hlen hroom
      obtain ⟨hserves, hdone, hlater⟩ := ih hstep (hrest.mono hle)
      rw [StorageEngine.writeRebuilt]
      simp only [hok]
      refine ⟨hserves, fun b hb => hdone b (hkeep b hb), ?_⟩
      intro blob body hnot hfind
      by_cases heq : blob₀ = blob
      · subst heq
        rw [List.find?_cons_of_pos (by simp)] at hfind
        have hbody : body₀ = body := by simpa using hfind
        subst hbody
        exact hdone _ (hnew hnot)
      · rw [List.find?_cons_of_neg (by simpa using heq)] at hfind
        refine hlater blob body ?_ hfind
        intro hmem
        rcases hids blob hmem with hmem | rfl
        · exact hnot hmem
        · exact heq rfl

/-! ## Attempts -/

/-- A new rebuild extent, which serves the slot at once. -/
lemma rebuilt_create (htidy : Tidy engine)
    (hnot : ¬((engine.files.get extent).isSome ∧ (engine.index.getExtentMeta extent).isSome)) :
    Rebuilt (shardPrefix extent.shardId)
      (engine.performAll (engine.createPlan extent.shardId extent.createTs .Rebuilding)) extent []
      [] := by
  have hinstall : ∀ g : StorageEngine, (∀ blob, g.index.getBlob extent blob = none) →
      Rebuilt (shardPrefix extent.shardId)
        (g.performAll (installPlan extent.shardId extent.createTs .Rebuilding)) extent [] [] := by
    intro g hfresh
    refine ⟨serves_installPlan g _ _ _ (by decide), ?_, ?_, files_installPlan g _ _ _, by simp, ?_⟩
    · rw [writers_installPlan]
      exact Finset.mem_insert_self _ _
    · rw [status, getExtentMeta_installPlan]
      rfl
    · intro blob _
      rw [getBlob_installPlan]
      exact hfresh blob
  rcases htidy.create_cases extent.shardId extent.createTs .Rebuilding with
    ⟨hfile, hmeta, -⟩ | ⟨hfresh, hplan | hplan⟩
  · exact absurd ⟨hfile, hmeta⟩ hnot
  · rw [hplan]
    exact hinstall engine hfresh
  · rw [hplan]
    exact hinstall _ hfresh

lemma Tidy.repairShard (h : Tidy engine) (shard : ShardId) (attempt : RepairAttempt) :
    Tidy (engine.repairShard crc32c shard attempt) := by
  unfold StorageEngine.repairShard
  cases rebuildExtent shard attempt.jobId with
  | none => exact h
  | some target =>
    dsimp only
    have hwritten := (h.create target.shardId target.createTs .Rebuilding).writeRebuilt crc32c
      target (attempt.rebuilt.take (attempt.stop - 1))
    split_ifs
    · exact h
    · exact hwritten.promote target
    · exact hwritten

/-- One attempt that meets the condition. -/
lemma Serves.retains_repairShard {shard : ShardId} (h : Serves engine (shardPrefix shard) extent)
    (htidy : Tidy engine) {attempt : RepairAttempt}
    (hrestores : Restores shard engine (.repair attempt)) :
    ∃ extent', Retains (shardPrefix shard) engine extent
      (engine.repairShard crc32c shard attempt) extent' := by
  unfold StorageEngine.repairShard
  cases hextent : rebuildExtent shard attempt.jobId with
  | none => exact ⟨extent, h.carries.retains⟩
  | some target =>
    dsimp only
    by_cases hstop : attempt.stop = 0
    · rw [if_pos hstop]
      exact ⟨extent, h.carries.retains⟩
    rw [if_neg hstop]
    have hwritten : ∃ extent', Retains (shardPrefix shard) engine extent
        (writeRebuilt crc32c target (engine.performAll
          (engine.createPlan target.shardId target.createTs .Rebuilding))
          (attempt.rebuilt.take (attempt.stop - 1))).1 extent' := by
      by_cases hinst : (engine.files.get target).isSome
          ∧ (engine.index.getExtentMeta target).isSome
      · rw [createPlan_of_installed .Rebuilding hinst.1 hinst.2]
        exact ⟨extent, h.retains_writeRebuilt crc32c target _⟩
      · rcases hrestores with hzero | hall
        · exact absurd hzero hstop
        rcases hall target hextent with hinst' | ⟨hfits, hcover⟩
        · exact absurd hinst' hinst
        have hrebuilt := rebuilt_create htidy hinst
        rw [shardPrefix_rebuildExtent hextent] at hrebuilt
        obtain ⟨hserves, -, hlive⟩ := hrebuilt.writeRebuilt crc32c hfits
        refine ⟨target, hserves, fun blob body hblob => hlive blob body (by simp) ?_⟩
        exact hcover extent h.bound blob body hblob
    obtain ⟨extent', hretains⟩ := hwritten
    split_ifs
    · exact ⟨extent', hretains.trans (hretains.serves.retains_promote target)⟩
    · exact ⟨extent', hretains⟩

end

end StorageEngine

open StorageEngine

/-- Repairs of a shard and maintenance sweeps lose no live blob, while every attempt stops before it
creates its extent, finds it installed, or rebuilds every live blob before it stops. -/
theorem repair_keeps_readable (crc32c : Bytes → UInt32) {engine : StorageEngine} {shard : ShardId}
    {extent : ExtentId} (hserves : Serves engine (shardPrefix shard) extent) (htidy : Tidy engine)
    {steps : List RepairStep}
    (hrestores : Along (repairStep crc32c shard) (Restores shard) engine steps) {blob : BlobId}
    {body : Bytes} (hlive : Live engine extent blob body) :
    (run (repairStep crc32c shard) engine steps).readShard shard blob = .ok (some body) := by
  obtain ⟨-, extent', hretains⟩ : Tidy (run (repairStep crc32c shard) engine steps)
      ∧ ∃ extent', Retains (shardPrefix shard) engine extent
        (run (repairStep crc32c shard) engine steps) extent' := by
    refine Along.invariant (P := fun g => Tidy g ∧ ∃ extent',
      Retains (shardPrefix shard) engine extent g extent') ?_
      ⟨htidy, extent, hserves.carries.retains⟩ hrestores
    rintro g a ⟨hg, extent', hretains⟩ ha
    cases a with
    | repair attempt =>
      obtain ⟨extent'', hstep⟩ := hretains.serves.retains_repairShard crc32c hg ha
      exact ⟨hg.repairShard crc32c shard attempt, extent'', hretains.trans hstep⟩
    | sweep ratioPercent perSweep clock =>
      obtain ⟨extent'', hstep⟩ := hretains.serves.carries_sweep crc32c hg ratioPercent perSweep
        clock
      exact ⟨hg.sweep crc32c ratioPercent perSweep clock, extent'',
        hretains.trans hstep.retains⟩
  exact (hretains.live blob body hlive).readShard hretains.serves.bound

lemma tidy_compactionSource : compactionSource.Tidy := by
  have hkeeps : DataNode.Keeps (run (DataNode.step (fun _ => 0) fun _ => 5) .empty
      [.createExtent 1, .write ⟨1, 5⟩ 10 [1], .write ⟨1, 5⟩ 11 [2], .delete ⟨1, 5⟩ 10]) :=
    Along.invariant (fun node a hnode hresp => hnode.step (fun _ => 0) (fun _ => 5) hresp)
      DataNode.keeps_empty (by decide +kernel : Along _ (DataNode.Respects fun _ => 5) _ _)
  exact hkeeps.tidy

lemma eq_of_live_compactionSource {blob : BlobId} {body : Bytes}
    (h : compactionSource.Live ⟨1, 5⟩ blob body) : blob = 11 ∧ body = [2] := by
  have hblob : blob = 11 := by
    obtain ⟨entry, r, hreads, htomb, -⟩ := h
    have hmem := DiskIndex.mem_listBlobs.mpr hreads.entry_eq
    have hall : ∀ b ∈ compactionSource.index.listBlobs ⟨1, 5⟩,
        b.2.isTombstoned = false → b.1 = 11 := by decide +kernel
    exact hall _ hmem htomb
  subst hblob
  have hread := h.readShard serves_compactionSource.bound
  rw [live_compactionSource.readShard serves_compactionSource.bound] at hread
  exact ⟨rfl, by simpa using hread.symm⟩

/-- A repair that rebuilds the blob, and a sweep that removes the old extent. -/
theorem repair_keeps_readable_demo :
    Along (repairStep (fun _ => 0) 1) (Restores 1) compactionSource
        [.repair ⟨0, [(11, some [2])], 4⟩, .sweep 30 8 fun _ => 7]
      ∧ (run (repairStep (fun _ => 0) 1) compactionSource
        [.repair ⟨0, [(11, some [2])], 4⟩, .sweep 30 8 fun _ => 7]).readShard 1 11
          = .ok (some [2]) := by
  have h : Along (repairStep (fun _ => 0) 1) (Restores 1) compactionSource
      [.repair ⟨0, [(11, some [2])], 4⟩, .sweep 30 8 fun _ => 7] := by
    refine ⟨Or.inr fun extent _ => Or.inr ⟨⟨by decide, by decide +kernel, trivial⟩, ?_⟩,
      trivial, trivial⟩
    intro source hbound blob body hlive
    obtain rfl : source = ⟨1, 5⟩ :=
      Option.some.inj (hbound.symm.trans serves_compactionSource.bound)
    obtain ⟨rfl, rfl⟩ := eq_of_live_compactionSource hlive
    rfl
  exact ⟨h, repair_keeps_readable (fun _ => 0) serves_compactionSource tidy_compactionSource h
    live_compactionSource⟩

/-- The survivors are too few: the attempt stops after the creation, with the slot bound to the empty
extent, and the sweep removes the extent that holds the blob. -/
theorem stopped_repair_hides_blobs :
    compactionSource.readShard 1 11 = .ok (some [2])
      ∧ (run (repairStep (fun _ => 0) 1) compactionSource
        [.repair ⟨0, [(11, none)], 2⟩]).readShard 1 11 = .ok none
      ∧ (run (repairStep (fun _ => 0) 1) compactionSource
        [.repair ⟨0, [(11, none)], 2⟩, .sweep 30 8 fun _ => 7]).files.get ⟨1, 5⟩ = none := by
  decide +kernel

end Epoch
