import Epoch.Lib.Greedy
import Epoch.Pd.State

/-!
# Choosing the disks of a chunk (`epoch-pd/src/chunk/placement.rs`)

`plan_placement` goes through the candidates by watermark and takes every disk that shares no fault
domain with those it has taken.  The disks of one host-aware placement conflict when they share a
node, an equivalence, so whatever is taken blocks no more than itself and the loop finds a placement
whenever there is one.  In rack-aware mode a disk stands for a node and a rack at once, and the first
disk taken may block two others that fit together (`early_disk_blocks_two`).

`plan_placement_complete_iff` says when the loop fails although a placement exists: when fewer disks
than shards are enough to block, each from before, all the others.
-/

namespace Epoch.Pd

/-- The order of `sort_by`, which is stable: by watermark, then by disk. -/
def DiskCandidate.before (a b : DiskCandidate) : Prop :=
  a.writableExtents < b.writableExtents
    ∨ a.writableExtents = b.writableExtents ∧ a.diskId ≤ b.diskId

instance : DecidableRel DiskCandidate.before := fun _ _ => instDecidableOr

def byWatermark (candidates : List DiskCandidate) : List DiskCandidate :=
  candidates.insertionSort DiskCandidate.before

/-- The loop of `plan_placement`. -/
def pickLoop (shardsTotal : UInt16) (affinity : AntiAffinity) :
    List DiskCandidate → List DiskId → List NodeId → List String → Option (List DiskId)
  | [], _, _, _ => none
  | candidate :: rest, chosen, usedNodes, usedRacks =>
    if usedNodes.contains candidate.nodeId then
      pickLoop shardsTotal affinity rest chosen usedNodes usedRacks
    else if affinity = .RackAware ∧ usedRacks.contains candidate.rack then
      pickLoop shardsTotal affinity rest chosen usedNodes usedRacks
    else
      let chosen := chosen ++ [candidate.diskId]
      if chosen.length = shardsTotal.toNat then some chosen
      else
        pickLoop shardsTotal affinity rest chosen (usedNodes ++ [candidate.nodeId])
          (usedRacks ++ [candidate.rack])

def planPlacement (candidates : List DiskCandidate) (shardsTotal : UInt16)
    (affinity : AntiAffinity) : Option (List DiskId) :=
  pickLoop shardsTotal affinity (byWatermark candidates) [] [] []

/-! ## Placements -/

/-- The two disks share no fault domain. -/
def Apart (affinity : AntiAffinity) (a b : DiskCandidate) : Prop :=
  a.nodeId ≠ b.nodeId ∧ (affinity = .RackAware → a.rack ≠ b.rack)

instance (affinity : AntiAffinity) : DecidableRel (Apart affinity) := fun _ _ => instDecidableAnd

/-- A set of `n` candidates, no two of which share a fault domain. -/
def Placed (candidates : List DiskCandidate) (n : ℕ) (affinity : AntiAffinity)
    (disks : List DiskCandidate) : Prop :=
  disks ⊆ candidates ∧ disks.Pairwise (Apart affinity) ∧ disks.length = n

instance (candidates : List DiskCandidate) (n : ℕ) (affinity : AntiAffinity)
    (disks : List DiskCandidate) : Decidable (Placed candidates n affinity disks) :=
  instDecidableAnd

/-- Fewer than `n` disks apart from each other are enough to share, each as the earlier one, a fault
domain with every other candidate. -/
def Blocked (candidates : List DiskCandidate) (n : ℕ) (affinity : AntiAffinity) : Prop :=
  ∃ disks, Stable (Apart affinity) disks (byWatermark candidates) ∧ disks.length < n

section Plan

variable {candidates : List DiskCandidate} {shardsTotal : UInt16} {affinity : AntiAffinity}

instance : Std.Symm (Apart affinity) :=
  ⟨fun _ _ h => ⟨h.1.symm, fun hrack => (h.2 hrack).symm⟩⟩

lemma Apart.irrefl (a : DiskCandidate) : ¬ Apart affinity a a := fun h => h.1 rfl

lemma mem_byWatermark {a : DiskCandidate} : a ∈ byWatermark candidates ↔ a ∈ candidates :=
  (List.perm_insertionSort _ candidates).mem_iff

/-- The loop is the greedy choice, cut off when all shards have a disk. -/
lemma pickLoop_eq (rest taken : List DiskCandidate)
    (htaken : taken.length < shardsTotal.toNat) :
    pickLoop shardsTotal affinity rest (taken.map (·.diskId)) (taken.map (·.nodeId))
        (taken.map (·.rack))
      = if shardsTotal.toNat ≤ (greedy (Apart affinity) taken rest).length then
          some (((greedy (Apart affinity) taken rest).take shardsTotal.toNat).map (·.diskId))
        else none := by
  induction rest generalizing taken with
  | nil => rw [pickLoop, greedy, if_neg (not_le.mpr htaken)]
  | cons c rest ih =>
    have hapart : (∀ a ∈ taken, Apart affinity a c)
        ↔ ¬ (taken.map (·.nodeId)).contains c.nodeId
          ∧ ¬ (affinity = .RackAware ∧ (taken.map (·.rack)).contains c.rack) := by
      simp only [Apart, List.contains_eq_mem, List.mem_map, decide_eq_true_eq]
      constructor
      · intro h
        refine ⟨?_, ?_⟩
        · rintro ⟨a, ha, heq⟩
          exact (h a ha).1 heq
        · rintro ⟨hrack, a, ha, heq⟩
          exact (h a ha).2 hrack heq
      · rintro ⟨hnode, hrack⟩ a ha
        exact ⟨fun heq => hnode ⟨a, ha, heq⟩, fun hmode heq => hrack ⟨hmode, a, ha, heq⟩⟩
    rw [pickLoop, greedy]
    by_cases hc : ∀ a ∈ taken, Apart affinity a c
    · obtain ⟨hnode, hrack⟩ := hapart.mp hc
      rw [if_neg hnode, if_neg hrack, if_pos hc]
      have hmap : ∀ {β : Type} (f : DiskCandidate → β), taken.map f ++ [f c] = (taken ++ [c]).map f :=
        fun f => by rw [List.map_append, List.map_singleton]
      simp only [hmap, List.length_map]
      by_cases hlast : (taken ++ [c]).length = shardsTotal.toNat
      · have hinit := greedy_prefix (Apart affinity) (taken ++ [c]) rest
        rw [if_pos hlast, if_pos (hlast ▸ hinit.length_le), ← hlast,
          ← List.prefix_iff_eq_take.mp hinit]
      · rw [if_neg hlast]
        refine ih _ ?_
        rw [List.length_append, List.length_singleton] at hlast ⊢
        omega
    · rw [if_neg hc, ← ih taken htaken]
      by_cases hnode : (taken.map (·.nodeId)).contains c.nodeId
      · rw [if_pos hnode]
      · rw [if_neg hnode, if_pos (not_not.mp fun hrack => hc (hapart.mpr ⟨hnode, hrack⟩))]

lemma planPlacement_eq (hshards : 0 < shardsTotal) :
    planPlacement candidates shardsTotal affinity
      = if shardsTotal.toNat ≤ (greedy (Apart affinity) [] (byWatermark candidates)).length then
          some (((greedy (Apart affinity) [] (byWatermark candidates)).take shardsTotal.toNat).map
            (·.diskId))
        else none :=
  pickLoop_eq _ [] (by simpa using UInt16.lt_iff_toNat_lt.mp hshards)

/-- What is chosen is a placement. -/
lemma planPlacement_placed (hshards : 0 < shardsTotal) {chosen : List DiskId}
    (h : planPlacement candidates shardsTotal affinity = some chosen) :
    ∃ disks, Placed candidates shardsTotal.toNat affinity disks ∧ chosen = disks.map (·.diskId) := by
  rw [planPlacement_eq hshards] at h
  split_ifs at h with hlen
  have hstable := stable_greedy (R := Apart affinity) (byWatermark candidates)
  refine ⟨_, ⟨?_, hstable.compatible.sublist (List.take_sublist _ _), ?_⟩, (Option.some.inj h).symm⟩
  · intro a ha
    exact mem_byWatermark.mp (hstable.subset (List.mem_of_mem_take ha))
  · rw [List.length_take]
    omega

lemma planPlacement_isSome_iff (hshards : 0 < shardsTotal) :
    (planPlacement candidates shardsTotal affinity).isSome
      ↔ ¬ Blocked candidates shardsTotal.toNat affinity := by
  rw [planPlacement_eq hshards]
  split_ifs with hlen
  · simp only [Option.isSome_some, true_iff]
    rintro ⟨disks, hstable, hfew⟩
    have hle := length_greedy_le Apart.irrefl hstable
    omega
  · simp only [Option.isSome_none, Bool.false_eq_true, false_iff, not_not]
    exact ⟨_, stable_greedy _, not_le.mp hlen⟩

/-- Disks that conflict share the value of `domain`; then blocking disks are as many as any others
that are apart. -/
lemma not_blocked_of_domain {β : Type} (domain : DiskCandidate → β) {n : ℕ}
    {disks : List DiskCandidate} (hplaced : Placed candidates n affinity disks)
    (hdomain : ∀ a ∈ candidates, ∀ b ∈ candidates, ¬ Apart affinity a b → domain a = domain b)
    (hdistinct : ∀ a b, Apart affinity a b → domain a ≠ domain b) :
    ¬ Blocked candidates n affinity := by
  obtain ⟨hsubset, hpair, rfl⟩ := hplaced
  rintro ⟨blocking, hstable, hfew⟩
  have hnodup : (disks.map domain).Nodup := List.pairwise_map.mpr (hpair.imp (hdistinct _ _))
  have hcover : disks.map domain ⊆ blocking.map domain := by
    intro x hx
    obtain ⟨a, ha, rfl⟩ := List.mem_map.mp hx
    rcases hstable.cover (mem_byWatermark.mpr (hsubset ha)) with hmem | ⟨b, hb, hnot⟩
    · exact List.mem_map_of_mem hmem
    · have hmem := mem_byWatermark.mp (hstable.subset hb)
      exact List.mem_map.mpr ⟨b, hb, hdomain b hmem a (hsubset ha) hnot⟩
  have hle := (hnodup.subperm hcover).length_le
  rw [List.length_map, List.length_map] at hle
  omega

end Plan

/-- **A placement is found whenever one exists, and what is found is one, exactly when, in rack-aware
mode with a placement at hand, no fewer disks than shards block all others.** -/
theorem plan_placement_complete_iff (candidates : List DiskCandidate) {shardsTotal : UInt16}
    (hshards : 0 < shardsTotal) (affinity : AntiAffinity) :
    (((planPlacement candidates shardsTotal affinity).isSome
          ↔ ∃ disks, Placed candidates shardsTotal.toNat affinity disks)
        ∧ ∀ chosen ∈ planPlacement candidates shardsTotal affinity,
          ∃ disks, Placed candidates shardsTotal.toNat affinity disks
            ∧ chosen = disks.map (·.diskId))
      ↔ (affinity = .RackAware → ∀ disks, Placed candidates shardsTotal.toNat affinity disks →
        ¬ Blocked candidates shardsTotal.toNat affinity) := by
  rw [planPlacement_isSome_iff hshards]
  constructor
  · rintro ⟨hiff, -⟩ - disks hplaced
    exact hiff.mpr ⟨disks, hplaced⟩
  · intro h
    refine ⟨⟨fun hfree => ?_, ?_⟩, fun chosen hchosen => planPlacement_placed hshards hchosen⟩
    · obtain ⟨chosen, hchosen⟩ :=
        Option.isSome_iff_exists.mp ((planPlacement_isSome_iff hshards).mpr hfree)
      obtain ⟨disks, hplaced, -⟩ := planPlacement_placed hshards hchosen
      exact ⟨disks, hplaced⟩
    · rintro ⟨disks, hplaced⟩
      cases affinity with
      | RackAware => exact h rfl disks hplaced
      | HostAware =>
        refine not_blocked_of_domain (·.nodeId) hplaced ?_ fun a b hab => hab.1
        intro a _ b _ hnot
        simpa [Apart] using hnot

/-- Racks that belong to a node each, or nodes that stand in one rack each, cannot be blocked. -/
theorem not_blocked_of_nested {candidates : List DiskCandidate} {n : ℕ}
    (hnested : (∀ a ∈ candidates, ∀ b ∈ candidates, a.nodeId = b.nodeId → a.rack = b.rack)
      ∨ ∀ a ∈ candidates, ∀ b ∈ candidates, a.rack = b.rack → a.nodeId = b.nodeId)
    {disks : List DiskCandidate} (hplaced : Placed candidates n .RackAware disks) :
    ¬ Blocked candidates n .RackAware := by
  have hshare : ∀ {a b : DiskCandidate}, ¬ Apart .RackAware a b →
      a.nodeId = b.nodeId ∨ a.rack = b.rack := by
    intro a b hnot
    by_contra hne
    push Not at hne
    exact hnot ⟨hne.1, fun _ => hne.2⟩
  rcases hnested with hrack | hnode
  · refine not_blocked_of_domain (·.rack) hplaced ?_ fun a b hab => hab.2 rfl
    intro a ha b hb hnot
    exact (hshare hnot).elim (hrack a ha b hb) id
  · refine not_blocked_of_domain (·.nodeId) hplaced ?_ fun a b hab => hab.1
    intro a ha b hb hnot
    exact (hshare hnot).elim id (hnode a ha b hb)

/-- Disk 1 with a node and a rack in common with disks 2 and 3, which fit together. -/
def crossed : List DiskCandidate := [⟨1, 1, "a", 0⟩, ⟨2, 1, "b", 1⟩, ⟨3, 2, "a", 2⟩]

theorem plan_placement_complete_demo :
    0 < (2 : UInt16) ∧ planPlacement crossed 2 .HostAware = some [1, 3]
      ∧ ∃ disks, Placed crossed 2 .HostAware disks ∧ [1, 3] = disks.map (·.diskId) := by
  have hplan : planPlacement crossed 2 .HostAware = some [1, 3] := by decide +kernel
  exact ⟨by decide, hplan, ((plan_placement_complete_iff crossed (by decide) .HostAware).mpr
    fun hmode => AntiAffinity.noConfusion hmode).2 _ hplan⟩

/-- The disk with the lowest watermark is taken first and blocks the two others. -/
theorem early_disk_blocks_two :
    planPlacement crossed 2 .RackAware = none
      ∧ Placed crossed 2 .RackAware [⟨2, 1, "b", 1⟩, ⟨3, 2, "a", 2⟩] := by
  decide +kernel

end Epoch.Pd
