import Epoch.Lib.Greedy
import Epoch.Pd.State

/-!
# The peers of a new partition (`pick_meta_peers` of `epoch-pd/src/service.rs`)

Two loops go through the live META nodes in the order of their zones: the first takes one node of
every zone, the second fills up with what is left, and both stop at `count` nodes.  Each is a greedy
choice that is cut off (`pickZones_eq`, `pickRest_eq`), the first among nodes of different zones, the
second among nodes with different ids.  So the first one reaches as many zones as there are or as are
asked for, and the second one comes to `count` whenever there are that many nodes.
-/

namespace Epoch.Pd

/-- The order of `sort_by_key`: by zone, then by id. -/
def Node.before (a b : Node) : Prop := a.az < b.az ∨ a.az = b.az ∧ a.nodeId ≤ b.nodeId

instance : DecidableRel Node.before := fun _ _ => instDecidableOr

def liveMetas (index : NodeIndex) : List Node :=
  index.list.filter fun node => node.roles.contains .META && node.status = .Live

/-- The first loop, with the zones it has seen. -/
def pickZones (count : ℕ) : List Node → List NodeId → List String → List NodeId
  | [], picked, _ => picked
  | node :: rest, picked, seenAz =>
    if picked.length = count then picked
    else if seenAz.contains node.az then pickZones count rest picked seenAz
    else pickZones count rest (picked ++ [node.nodeId]) (seenAz ++ [node.az])

/-- The second loop. -/
def pickRest (count : ℕ) : List Node → List NodeId → List NodeId
  | [], picked => picked
  | node :: rest, picked =>
    if picked.length = count then picked
    else if picked.contains node.nodeId then pickRest count rest picked
    else pickRest count rest (picked ++ [node.nodeId])

def pickMetaPeers (index : NodeIndex) (count : ℕ) : Except String (List NodeId) :=
  let metas := liveMetas index
  let n := metas.length
  if n < count then .error s!"need at least {count} live META nodes, have {n}"
  else
    let metas := metas.insertionSort Node.before
    .ok (pickRest count metas (pickZones count metas [] []))

/-! ## Node tables -/

/-- Nodes lie under their own ids. -/
def NodeIndex.Keyed (index : NodeIndex) : Prop :=
  ∀ id node, index.get id = some node → node.nodeId = id

lemma nodes_keyed_next {state : PdState} (h : state.nodes.Keyed) (entry : PdEntry) :
    (state.next entry).nodes.Keyed := by
  intro id node hget
  rcases state.next_cases entry with hsame | ⟨result, hok⟩
  · rw [hsame] at hget
    exact h id node hget
  · cases entry with
    | RegisterNode cmd =>
      obtain ⟨⟨nodeId, nodes⟩, hreg, heq⟩ := map_eq_ok hok
      rw [← (Prod.mk.inj heq).2, NodeIndex.get] at hget
      unfold NodeIndex.applyRegister at hreg
      split at hreg
      · cases hreg
        exact h id node hget
      · obtain ⟨nextId, -, heq⟩ := map_eq_ok hreg
        cases heq
        simp only [OrdMap.get_insert] at hget
        split_ifs at hget with hid
        · rw [← Option.some.inj hget, ← hid]
        · exact h id node hget
    | UpdateNodeStatus cmd =>
      rw [← (Prod.mk.inj (Except.ok.inj hok)).2] at hget
      rcases @get_transition Node NodeStatus _ Node.status (fun node status => { node with status })
        NodeStatus.canTransitionTo state.nodes.nodes cmd.nodeId cmd.status id with
        hsame | ⟨rfl, current, hcurrent, -, -, hset⟩
      · exact h id node (hsame.symm.trans hget)
      · rw [← Option.some.inj (hset.symm.trans hget)]
        exact h _ current hcurrent
    | RemoveNode cmd =>
      rw [← (Prod.mk.inj (Except.ok.inj hok)).2, NodeIndex.get, NodeIndex.applyRemove] at hget
      split at hget
      · exact h id node hget
      · split_ifs at hget with hstatus
        · exact h id node hget
        · rw [OrdMap.get_erase] at hget
          split_ifs at hget with hid
          exact h id node hget
    | _ =>
      rw [(PdState.untouched_applyCommand hok).nodes (by simp [PdEntry.touches])] at hget
      exact h id node hget

/-- The node tables of all states that entries lead to are keyed. -/
theorem nodes_keyed_run (entries : List PdEntry) :
    (run PdState.next PdState.new entries).nodes.Keyed :=
  Along.invariant (P := fun state => state.nodes.Keyed) (G := fun _ _ => True)
    (fun _ entry h _ => nodes_keyed_next h entry)
    (fun id node hget => by simp [PdState.new, NodeIndex.new, NodeIndex.get] at hget)
    (along_of_forall (fun _ _ _ => trivial) PdState.new)

lemma nodup_liveMetas {index : NodeIndex} (h : index.Keyed) :
    ((liveMetas index).map Node.nodeId).Nodup := by
  have hids : index.list.map Node.nodeId = index.nodes.toList.map Prod.fst := by
    rw [NodeIndex.list, List.map_map]
    exact List.map_congr_left fun e he => h e.1 e.2 ((OrdMap.mem_toList_iff _ _ _).mp he)
  refine List.Nodup.sublist (List.filter_sublist.map _) ?_
  rw [hids]
  exact index.nodes.nodup_keys

/-! ## The loops -/

section Loops

variable {count : ℕ} {metas taken : List Node}

lemma pickZones_eq (htaken : taken.length ≤ count) :
    pickZones count metas (taken.map Node.nodeId) (taken.map Node.az)
      = ((greedy (fun a b : Node => a.az ≠ b.az) taken metas).take count).map Node.nodeId := by
  induction metas generalizing taken with
  | nil => rw [pickZones, greedy, List.take_of_length_le htaken]
  | cons node rest ih =>
    have hnew : (∀ b ∈ taken, b.az ≠ node.az) ↔ ¬ (taken.map Node.az).contains node.az := by
      simp [eq_comm]
    rw [take_greedy_cons, pickZones, List.length_map]
    simp only [hnew]
    split_ifs with hfull hseen
    · rfl
    · exact ih htaken
    · rw [← ih (by simp; omega), List.map_append, List.map_append]
      rfl

lemma pickRest_eq (htaken : taken.length ≤ count) :
    pickRest count metas (taken.map Node.nodeId)
      = ((greedy (fun a b : Node => a.nodeId ≠ b.nodeId) taken metas).take count).map
          Node.nodeId := by
  induction metas generalizing taken with
  | nil => rw [pickRest, greedy, List.take_of_length_le htaken]
  | cons node rest ih =>
    have hnew : (∀ b ∈ taken, b.nodeId ≠ node.nodeId)
        ↔ ¬ (taken.map Node.nodeId).contains node.nodeId := by
      simp [eq_comm]
    rw [take_greedy_cons, pickRest, List.length_map]
    simp only [hnew]
    split_ifs with hfull hseen
    · rfl
    · exact ih htaken
    · rw [← ih (by simp; omega), List.map_append]
      rfl

/-- The nodes that both loops choose. -/
lemma spread (hnodup : (metas.map Node.nodeId).Nodup) (hcount : count ≤ metas.length) :
    ∃ picked : List Node, pickRest count metas (pickZones count metas [] []) = picked.map Node.nodeId
      ∧ picked.length = count ∧ (picked.map Node.nodeId).Nodup ∧ picked ⊆ metas
      ∧ (picked.map Node.az).toFinset.card = min count (metas.map Node.az).toFinset.card := by
  have hzones := stable_greedy (R := fun a b : Node => a.az ≠ b.az) metas
  have hcard := congrArg Finset.card (toFinset_greedy Node.az metas)
  rw [List.toFinset_card_of_nodup (List.pairwise_map.mpr hzones.compatible), List.length_map]
    at hcard
  -- what the first loop took, and what the second adds to it
  generalize hfirst : (greedy (fun a b : Node => a.az ≠ b.az) [] metas).take count = first
  have hlen : first.length = min count (metas.map Node.az).toFinset.card := by
    rw [← hfirst, List.length_take, hcard]
  have hsub : first ⊆ metas := by
    rw [← hfirst]
    exact fun a ha => hzones.subset (List.mem_of_mem_take ha)
  have hazs : (first.map Node.az).Nodup := by
    rw [← hfirst]
    exact List.pairwise_map.mpr (hzones.compatible.sublist (List.take_sublist _ _))
  have hids : first.Pairwise fun a b => a.nodeId ≠ b.nodeId := by
    have hinj := List.inj_on_of_nodup_map hnodup
    refine (List.pairwise_map.mp hazs).imp_of_mem fun ha hb hne heq => hne ?_
    rw [hinj (hsub ha) (hsub hb) heq]
  have hall : Stable _ _ (first ++ metas) := (stable_self hids).greedy
  generalize hgreedy : greedy (fun a b : Node => a.nodeId ≠ b.nodeId) first metas = all at hall
  have hsubset : all ⊆ metas := fun a ha => (List.mem_append.mp (hall.subset ha)).elim (hsub ·) id
  have hmetas : metas ⊆ all := by
    intro a ha
    rcases hall.cover (List.mem_append_right first ha) with hmem | ⟨b, hb, hnot⟩
    · exact hmem
    · exact List.inj_on_of_nodup_map hnodup (hsubset hb) ha (not_not.mp hnot) ▸ hb
  have hlong := (hnodup.of_map.subperm hmetas).length_le
  have hinit : first <+: all.take count := by
    rw [List.prefix_take_iff, ← hgreedy]
    exact ⟨ greedy_prefix _ first metas, by omega⟩
  have hpicked : (all.take count).length = count := by
    rw [List.length_take]
    omega
  refine ⟨all.take count, ?_, hpicked, ?_, fun a ha => hsubset (List.mem_of_mem_take ha), ?_⟩
  · have hpick := @pickZones_eq count metas [] (Nat.zero_le count)
    rw [hfirst] at hpick
    rw [← hgreedy, ← pickRest_eq (by omega)]
    exact congrArg _ hpick
  · exact List.pairwise_map.mpr (hall.compatible.sublist (List.take_sublist _ _))
  · refine le_antisymm (le_min ?_ ?_) ?_
    · calc ((all.take count).map Node.az).toFinset.card
          ≤ ((all.take count).map Node.az).length := List.toFinset_card_le _
        _ = count := by rw [List.length_map, hpicked]
    · refine Finset.card_le_card fun x hx => ?_
      obtain ⟨a, ha, rfl⟩ := List.mem_map.mp (List.mem_toFinset.mp hx)
      exact List.mem_toFinset.mpr (List.mem_map_of_mem (hsubset (List.mem_of_mem_take ha)))
    · rw [← hlen, ← List.length_map Node.az, ← List.toFinset_card_of_nodup hazs]
      refine Finset.card_le_card fun x hx => ?_
      obtain ⟨a, ha, rfl⟩ := List.mem_map.mp (List.mem_toFinset.mp hx)
      exact List.mem_toFinset.mpr (List.mem_map_of_mem (hinit.subset ha))

end Loops

/-- **With `count` live META nodes the peers are that many of them, all different and in as many zones as
possible; with fewer there are none.** -/
theorem pick_meta_peers_spread {index : NodeIndex} (hkeyed : index.Keyed) (count : ℕ) :
    if count ≤ (liveMetas index).length then
      ∃ picked : List Node, pickMetaPeers index count = .ok (picked.map Node.nodeId)
        ∧ picked.length = count ∧ (picked.map Node.nodeId).Nodup ∧ picked ⊆ liveMetas index
        ∧ (picked.map Node.az).toFinset.card
          = min count ((liveMetas index).map Node.az).toFinset.card
    else ∃ text, pickMetaPeers index count = .error text := by
  split_ifs with hcount
  · have hperm := List.perm_insertionSort Node.before (liveMetas index)
    obtain ⟨picked, hpick, hlen, hnodup, hsubset, hcard⟩ :=
      spread ((hperm.map Node.nodeId).nodup_iff.mpr (nodup_liveMetas hkeyed))
        (hperm.length_eq ▸ hcount)
    refine ⟨picked, ?_, hlen, hnodup, fun a ha => hperm.mem_iff.mp (hsubset ha), ?_⟩
    · rw [pickMetaPeers, if_neg (not_lt.mpr hcount)]
      exact congrArg Except.ok hpick
    · rw [hcard, List.toFinset_eq_of_perm _ _ (hperm.map Node.az)]
  · exact ⟨_, if_pos (not_le.mp hcount)⟩

/-- Three META nodes of two zones register and come up. -/
def threeNodes : List PdEntry :=
  [.RegisterNode ⟨"p", "b", "r", .META⟩, .RegisterNode ⟨"q", "a", "r", .META⟩,
    .RegisterNode ⟨"s", "a", "r", .META⟩, .UpdateNodeStatus ⟨1, .Live⟩, .UpdateNodeStatus ⟨2, .Live⟩,
    .UpdateNodeStatus ⟨3, .Live⟩]

theorem pick_meta_peers_spread_demo :
    pickMetaPeers (run PdState.next PdState.new threeNodes).nodes 2 = .ok [2, 1]
      ∧ ∃ picked : List Node, picked.length = 2 ∧ (picked.map Node.az).toFinset.card = 2 := by
  have hspread := pick_meta_peers_spread (nodes_keyed_run threeNodes) 2
  rw [if_pos (by decide +kernel)] at hspread
  obtain ⟨picked, -, hlen, -, -, hcard⟩ := hspread
  exact ⟨by decide +kernel, picked, hlen, hcard.trans (by decide +kernel)⟩

end Epoch.Pd
