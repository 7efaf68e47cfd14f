import Epoch.Meta.Hier.Refinement
import Epoch.Meta.Raft.Node

/-!
# Inodes of a partition family

An inode is a partition's tag and a counter value.  A group draws counter values in order, and every
split hands its child a tag of its own, so over a whole family of groups no inode is minted twice
(`FamilyInv.nodup`).

The root directory's inode is a constant in the same number space: tag 0, counter 1.  The bootstrap
group has tag 0 and a counter that starts at zero, and nothing reserves the value one, so its second
create mints the root's inode (`mint_reaches_root`).  `minted_unique` excludes exactly that, and
links to the root that nothing has minted; then no directory entry points at the root, and no walk
comes back to it.
-/

namespace Epoch

/-! ## Composing inodes -/

lemma composeIno_eq_some {t : UInt32} {c i : UInt64} (h : composeIno t c = some i) :
    c.toNat < 2 ^ 48 ∧ i.toNat = t.toNat * 2 ^ 48 + c.toNat := by
  unfold composeIno at h
  split_ifs at h with hbad
  push Not at hbad
  obtain ⟨ht, hc⟩ := hbad
  simp only [INO_PARTITION_TAG_BITS, INO_COUNTER_BITS] at ht hc
  obtain rfl := Option.some.inj h
  have hbits : (UInt64.ofNat INO_COUNTER_BITS).toNat % 64 = 48 := by decide
  have hshift : (t.toUInt64 <<< UInt64.ofNat INO_COUNTER_BITS).toNat = t.toNat <<< 48 := by
    rw [UInt64.toNat_shiftLeft, hbits, UInt32.toNat_toUInt64, Nat.shiftLeft_eq]
    exact Nat.mod_eq_of_lt (by omega)
  refine ⟨hc, ?_⟩
  rw [UInt64.toNat_or, hshift, ← Nat.shiftLeft_add_eq_or_of_lt hc, Nat.shiftLeft_eq]

/-- **Tag and counter can be read back.** -/
lemma composeIno_inj {t t' : UInt32} {c c' i : UInt64} (h : composeIno t c = some i)
    (h' : composeIno t' c' = some i) : t = t' ∧ c = c' := by
  obtain ⟨hc, hi⟩ := composeIno_eq_some h
  obtain ⟨hc', hi'⟩ := composeIno_eq_some h'
  refine ⟨UInt32.toNat_inj.mp ?_, UInt64.toNat_inj.mp ?_⟩ <;> omega

/-! ## Runs with a history of inodes and tags -/

/-- The inode an entry takes from its machine's allocator, if any. -/
def Machine.mints (m : Machine) (store : MetaStore) (entry : Entry) : Option UInt64 :=
  match entry.payload with
  | .Normal (.Hier op) =>
    match Hier.apply store op m.delqNext ⟨m.inoTag, m.inoNext⟩ with
    | .error _ => none
    | .ok (_, ino') => if ino'.next = m.inoNext then none else composeIno m.inoTag m.inoNext
  | _ => none

/-- The tag a split hands out, if it is effective. -/
def Machine.tags (m : Machine) (entry : Entry) : Option UInt32 :=
  match entry.payload with
  | .Normal (.Split op) =>
    (m.range.split (op.atBucket, op.atRoutingKey)).map fun _ => op.childInoTag
  | _ => none

/-- A node with the inodes its entries have minted and the tags in use. -/
structure FamilyRun where
  node : Node
  minted : List UInt64
  tags : List UInt32

namespace FamilyRun

def init (store : MetaStore) (m : Machine) : FamilyRun := ⟨Node.running store m, [], [m.inoTag]⟩

def step (blake3 : Bytes → BitVec 256) (s : FamilyRun) (a : NodeStep) : FamilyRun :=
  match a with
  | .apply g entry _ =>
    { node := s.node.step blake3 a
      minted := s.minted ++ ((s.node.machines g).bind fun m => m.mints s.node.store entry).toList
      tags := s.tags ++ ((s.node.machines g).bind fun m => m.tags entry).toList }
  | _ => { s with node := s.node.step blake3 a }

end FamilyRun

/-- The steps of a hierarchical family: everything but raw entries. -/
def NodeStep.isHierStep : NodeStep → Bool
  | .apply _ entry _ => !entry.isRaw
  | _ => true

/-- A split hands out a tag that has not been used before. -/
def FreshTag (s : FamilyRun) : NodeStep → Prop
  | .apply g entry _ => ∀ m ∈ s.node.machines g, ∀ t ∈ m.tags entry, t ∉ s.tags
  | _ => True

/-- The op creates a file or a directory: it takes an inode if it succeeds. -/
def HierOp.creates (store : MetaStore) : HierOp → Bool
  | Write b i n .. => n ≠ [] && (store.get .Fs (Hier.fsKey b i n)).isNone
  | MkdirSentinel .. => true
  | _ => false

/-- The inode an op links as a directory. -/
def HierOp.linked : HierOp → Option UInt64
  | MkdirLink _ _ _ child _ => some child
  | _ => none

/-- The condition on a step: the bootstrap group creates nothing while its counter stands at the
root's value, and no directory is linked under the root's inode unless that has been minted. -/
def InodeGuard (s : FamilyRun) : NodeStep → Prop
  | .apply g entry _ => ∀ m ∈ s.node.machines g, ∀ op ∈ entry.hierOp,
      (op.creates s.node.store = true → ¬ (m.inoTag = 0 ∧ m.inoNext = 1))
        ∧ ∀ child ∈ op.linked, child = ROOT_INO → child ∈ s.minted
  | _ => True

/-- Directory `i` of bucket `b` holds an entry for directory `j`. -/
def DirEdge (store : MetaStore) (b : BucketId) (i j : UInt64) : Prop :=
  ∃ n, store.get .Fs (Hier.fsKey b i n) = some (.Fs (.Dir ⟨j⟩))

-- the instance for options is named here, since the one found first enumerates all tags
instance (s : FamilyRun) : (a : NodeStep) → Decidable (FreshTag s a)
  | .apply .. => @Option.decidableForallMem _ _ (fun _ => Option.decidableForallMem _) _
  | .startChild _ | .clearPending _ => inferInstanceAs (Decidable True)

instance (s : FamilyRun) : (a : NodeStep) → Decidable (InodeGuard s a)
  | .apply .. => @Option.decidableForallMem _ _ (fun _ => @Option.decidableForallMem _ _
      (fun _ => @instDecidableAnd _ _ inferInstance (Option.decidableForallMem _)) _) _
  | .startChild _ | .clearPending _ => inferInstanceAs (Decidable True)

/-! ## What an entry mints -/

section Mint

variable {blake3 : Bytes → BitVec 256} {store : MetaStore} {m m' : Machine} {entry : Entry}
  {ops : List StoreOp}

/-- **An entry mints one inode or none**, and its counter moves accordingly. -/
lemma Machine.Effect.mints_cases (h : Effect blake3 store m entry ops m') :
    m.mints store entry = none ∧ m'.inoNext = m.inoNext
      ∨ ∃ i op, entry.payload = .Normal (.Hier op) ∧ op.creates store = true
        ∧ m.mints store entry = some i ∧ composeIno m.inoTag m.inoNext = some i
        ∧ m'.inoNext = m.inoNext + 1 := by
  cases h with
  | @hier op out ino' hp ha =>
    have hrec := Hier.apply_recordEffect ha
    generalize KvStore.on .Fs out.ops = ws at hrec
    by_cases hsame : ino' = ⟨m.inoTag, m.inoNext⟩
    · refine Or.inl ⟨?_, by simp [afterHier, hsame]⟩
      simp [mints, hp, ha, hsame]
    · have hcreates : op.creates store = true := by
        cases hrec with
        | reminted hmint hold => rfl
        | sentinel hmint hold => rfl
        | create hn hold hmint => simp [HierOp.creates, hn, hold]
        | _ => exact absurd rfl hsame
      obtain heq | ⟨child, hmint⟩ := hrec.allocator
      · exact absurd heq hsame
      · obtain ⟨hc, rfl⟩ := mint_eq_ok hmint
        refine Or.inr ⟨child, op, hp, hcreates, ?_, hc, rfl⟩
        simp [mints, hp, ha, hc]
  | blank hp => exact Or.inl ⟨by simp [mints, hp], rfl⟩
  | storeOps hp => exact Or.inl ⟨by simp [mints, hp], rfl⟩
  | flat hp ha => exact Or.inl ⟨by simp [mints, hp], rfl⟩
  | idleSplit hp hs => exact Or.inl ⟨by simp [mints, hp], rfl⟩
  | split hp hs => exact Or.inl ⟨by simp [mints, hp], rfl⟩
  | membership hp => exact Or.inl ⟨by simp [mints, hp], rfl⟩

/-- A new directory entry is the link of a MkdirLink. -/
lemma Machine.Effect.dir_get (h : Effect blake3 store m entry ops m')
    (hraw : entry.isRaw = false) {last : Bool} {key : Bytes} {d : DirEntry}
    (hget : MetaStore.get (store.applyBatch (ops ++ m'.appliedShare entry last)) .Fs key
      = some (.Fs (.Dir d))) :
    store.get .Fs key = some (.Fs (.Dir d))
      ∨ ∃ b i n ts, entry.hierOp = some (.MkdirLink b i n d.ino ts) := by
  rw [MetaStore.get, KvStore.applyBatch_cf] at hget
  rcases OrdMap.get_writeAll_eq_some hget with hmem | hold
  · rcases h.fs_share hraw last with ⟨-, hnil, -⟩ | ⟨op, ino', hp, -, hrec⟩
    · simp [hnil] at hmem
    · obtain ⟨b, i, n, ts, rfl, -⟩ := hrec.dir_put hmem
      exact Or.inr ⟨b, i, n, ts, hp⟩
  · exact Or.inl hold

/-- An entry leaves the tag records alone, or is a split that seeds one. -/
lemma Machine.Effect.tag_records (h : Effect blake3 store m entry ops m')
    (hdata : entry.dataOnly = true) (last : Bool) :
    (m.tags entry = none ∧ ∀ g s, s = 0x74 ∨ s = 0x70 →
        MetaStore.get (store.applyBatch (ops ++ m'.appliedShare entry last)) .Applied
          (bookkeepingKey g s) = store.get .Applied (bookkeepingKey g s))
      ∨ ∃ op : SplitOp, m.tags entry = some op.childInoTag
        ∧ (∀ g, MetaStore.get (store.applyBatch (ops ++ m'.appliedShare entry last)) .Applied
            (inoTagKey g)
          = if g = op.childGroup then some (.U32 op.childInoTag)
            else store.get .Applied (inoTagKey g))
        ∧ ∀ {parent pending},
            readPendingSplit (store.applyBatch (ops ++ m'.appliedShare entry last)) parent
                = .ok (some pending) →
              readPendingSplit store parent = .ok (some pending)
                ∨ pending.childGroup = op.childGroup := by
  rcases h.split_or with hsplit | ⟨op, left, right, hp, hs, rfl, rfl⟩
  · refine Or.inl ⟨?_, fun g s hs => h.get_applied hdata hsplit last (Or.inr ?_)⟩
    · unfold tags
      split
      · next op hp => simp [hsplit op hp]
      · rfl
    · rcases hs with rfl | rfl <;> decide
  · refine Or.inr ⟨op, by simp [tags, hp, hs], fun g => ?_, fun hread => ?_⟩
    · rw [inoTagKey, get_applied_split]
      simp
    · rcases h.pending_cases hdata hread with hold | ⟨-, op', left', hp', -, hchild, -⟩
      · exact Or.inl hold
      · rw [hp] at hp'
        injection hp' with hp'
        injection hp' with hop
        exact Or.inr (hop ▸ hchild)

end Mint

/-! ## The invariant -/

/-- Tags tell groups apart, those of unstarted children included. -/
structure TagInv (n : Node) (tags : List UInt32) : Prop where
  used : ∀ {g m}, n.machines g = some m → m.inoTag ∈ tags
  distinct : ∀ {g g' m m'}, n.machines g = some m → n.machines g' = some m' →
    m.inoTag = m'.inoTag → g = g'
  reserved : ∀ {g t}, n.machines g = none → n.store.get .Applied (inoTagKey g) = some (.U32 t) →
    t ∈ tags ∧ ∀ {g' m}, n.machines g' = some m → m.inoTag ≠ t
  reserved_inj : ∀ {g g' t}, n.machines g = none → n.machines g' = none →
    n.store.get .Applied (inoTagKey g) = some (.U32 t) →
      n.store.get .Applied (inoTagKey g') = some (.U32 t) → g = g'
  awaits : ∀ {parent pending}, n.Awaits parent pending →
    ∃ t, n.store.get .Applied (inoTagKey pending.childGroup) = some (.U32 t)

section Tags

variable {blake3 : Bytes → BitVec 256} {n : Node} {tags : List UInt32}

/-- The groups of `n'` run in `n`, under the same tags. -/
structure SameTags (n n' : Node) : Prop where
  running : ∀ {g m'}, n'.machines g = some m' → ∃ m, n.machines g = some m ∧ m'.inoTag = m.inoTag
  unstarted : ∀ {g}, n'.machines g = none → n.machines g = none

lemma SameTags.commit {m m' : Machine} {entry : Entry} {ops ops' : List StoreOp}
    (hm : n.machines m.group = some m) (heff : m.Effect blake3 n.store entry ops m') :
    SameTags n (n.commit m' entry ops') where
  running h := by
    obtain ⟨hgroup, htag⟩ := heff.group_eq
    rcases Node.put_eq_some h with ⟨rfl, rfl⟩ | ⟨-, hold⟩
    · exact ⟨m, by simp [hgroup, hm], by simp [htag]⟩
    · exact ⟨_, hold, rfl⟩
  unstarted h := (Node.put_eq_none h).2

variable {n' : Node}

/-- The invariant stays where tags, tag records and pending records do. -/
lemma TagInv.keep (hinv : TagInv n tags) (hsame : SameTags n n')
    (hrec : ∀ g, n'.store.get .Applied (inoTagKey g) = n.store.get .Applied (inoTagKey g))
    (hpend : ∀ {parent pending}, n'.Awaits parent pending → n.Awaits parent pending) :
    TagInv n' tags where
  used h := by
    obtain ⟨m₀, h₀, heq⟩ := hsame.running h
    exact heq ▸ hinv.used h₀
  distinct h h' heq := by
    obtain ⟨m₀, h₀, heq₀⟩ := hsame.running h
    obtain ⟨m₁, h₁, heq₁⟩ := hsame.running h'
    exact hinv.distinct h₀ h₁ (heq₀ ▸ heq₁ ▸ heq)
  reserved h hget := by
    obtain ⟨hmem, hne⟩ := hinv.reserved (hsame.unstarted h) (hrec _ ▸ hget)
    refine ⟨hmem, fun h' => ?_⟩
    obtain ⟨m₀, h₀, heq⟩ := hsame.running h'
    exact heq ▸ hne h₀
  reserved_inj h h' hget hget' :=
    hinv.reserved_inj (hsame.unstarted h) (hsame.unstarted h') (hrec _ ▸ hget) (hrec _ ▸ hget')
  awaits h := by
    rw [hrec]
    exact hinv.awaits (hpend h)

/-- A fresh tag may be recorded for any group. -/
lemma TagInv.seed (hinv : TagInv n tags) (hsame : SameTags n n') {child : UInt64} {t : UInt32}
    (ht : t ∉ tags)
    (hrec : ∀ g, n'.store.get .Applied (inoTagKey g)
      = if g = child then some (.U32 t) else n.store.get .Applied (inoTagKey g))
    (hpend : ∀ {parent pending}, n'.Awaits parent pending →
      n.Awaits parent pending ∨ pending.childGroup = child) :
    TagInv n' (tags ++ [t]) where
  used h := by
    obtain ⟨m₀, h₀, heq⟩ := hsame.running h
    exact List.mem_append_left _ (heq ▸ hinv.used h₀)
  distinct h h' heq := by
    obtain ⟨m₀, h₀, heq₀⟩ := hsame.running h
    obtain ⟨m₁, h₁, heq₁⟩ := hsame.running h'
    exact hinv.distinct h₀ h₁ (heq₀ ▸ heq₁ ▸ heq)
  reserved {g t'} h hget := by
    rw [hrec] at hget
    split_ifs at hget with hg
    · obtain rfl : t = t' := by simpa using hget
      refine ⟨by simp, fun h' heq' => ?_⟩
      obtain ⟨m₀, h₀, heq⟩ := hsame.running h'
      exact ht (heq' ▸ heq ▸ hinv.used h₀)
    · obtain ⟨hmem, hne⟩ := hinv.reserved (hsame.unstarted h) hget
      refine ⟨List.mem_append_left _ hmem, fun h' => ?_⟩
      obtain ⟨m₀, h₀, heq⟩ := hsame.running h'
      exact heq ▸ hne h₀
  reserved_inj {g g' t'} h h' hget hget' := by
    -- a recorded tag other than the new one is in use, so it is not the new one
    have hold : ∀ {g}, n'.machines g = none → n.store.get .Applied (inoTagKey g) = some (.U32 t') →
        t ≠ t' := by
      rintro g h hget rfl
      exact ht (hinv.reserved (hsame.unstarted h) hget).1
    rw [hrec] at hget hget'
    split_ifs at hget hget' with hg hg' hg'
    · exact hg.trans hg'.symm
    · exact absurd (by simpa using hget) (hold h' hget')
    · exact absurd (by simpa using hget') (hold h hget)
    · exact hinv.reserved_inj (hsame.unstarted h) (hsame.unstarted h') hget hget'
  awaits h := by
    rw [hrec]
    split_ifs with hg
    · exact ⟨t, rfl⟩
    · exact hinv.awaits ((hpend h).resolve_right hg)

/-- A child starts under the tag recorded for it. -/
lemma TagInv.start (hinv : TagInv n tags) {parent : UInt64} {pending : PendingSplit} {m : Machine}
    (hread : readPendingSplit n.store parent = .ok (some pending))
    (hnone : n.machines pending.childGroup = none) (hgroup : m.group = pending.childGroup)
    (htag : m.inoTag = readU32 n.store (inoTagKey pending.childGroup)) :
    TagInv (n.put n.store m) tags := by
  obtain ⟨t, ht⟩ := hinv.awaits ⟨hread, hnone⟩
  obtain rfl : m.inoTag = t := by rw [htag, readU32, ht]; rfl
  obtain ⟨hmem, hne⟩ := hinv.reserved hnone ht
  exact
    { used := fun h => by
        rcases Node.put_eq_some h with ⟨-, rfl⟩ | ⟨-, hold⟩
        · exact hmem
        · exact hinv.used hold
      distinct := fun h h' heq => by
        rcases Node.put_eq_some h with ⟨rfl, rfl⟩ | ⟨-, hold⟩ <;>
          rcases Node.put_eq_some h' with ⟨rfl, rfl⟩ | ⟨-, hold'⟩
        · rfl
        · exact absurd heq.symm (hne hold')
        · exact absurd heq (hne hold)
        · exact hinv.distinct hold hold' heq
      reserved := fun h hget => by
        obtain ⟨hg, hstopped⟩ := Node.put_eq_none h
        obtain ⟨hmem', hne'⟩ := hinv.reserved hstopped hget
        refine ⟨hmem', fun h' => ?_⟩
        rcases Node.put_eq_some h' with ⟨-, rfl⟩ | ⟨-, hold⟩
        · rintro rfl
          exact hg (hgroup ▸ hinv.reserved_inj hstopped hnone hget ht)
        · exact hne' hold
      reserved_inj := fun h h' => hinv.reserved_inj (Node.put_eq_none h).2 (Node.put_eq_none h').2
      awaits := fun h => hinv.awaits (h.of_start hread hgroup).2 }

end Tags

/-- Every minted inode lies below the counter of the group whose tag it carries. -/
structure FamilyInv (s : FamilyRun) : Prop where
  tags : TagInv s.node s.tags
  below : ∀ {i}, i ∈ s.minted → ∃ g m c, s.node.machines g = some m
    ∧ composeIno m.inoTag c = some i ∧ c.toNat < m.inoNext.toNat
  nodup : s.minted.Nodup
  notRoot : ROOT_INO ∉ s.minted
  links : ∀ {key d}, s.node.store.get .Fs key = some (.Fs (.Dir d)) → d.ino ≠ ROOT_INO

namespace FamilyInv

variable {blake3 : Bytes → BitVec 256} {s : FamilyRun}

/-- The root's inode is tag 0, counter 1. -/
lemma composeIno_ne_root {t : UInt32} {c i : UInt64} (h : composeIno t c = some i)
    (hroot : ¬ (t = 0 ∧ c = 1)) : i ≠ ROOT_INO := by
  rintro rfl
  exact hroot (composeIno_inj h (by decide))

/-- A counter value that composes is not the last one. -/
lemma toNat_succ_of_composeIno {t : UInt32} {c i : UInt64} (h : composeIno t c = some i) :
    (c + 1).toNat = c.toNat + 1 := by
  have hlt := (composeIno_eq_some h).1
  rw [UInt64.toNat_add]
  exact Nat.mod_eq_of_lt (by simp; omega)

/-- What a group would mint next has not been minted. -/
lemma next_notMem (hinv : FamilyInv s) {g : UInt64} {m : Machine} {i : UInt64}
    (hm : s.node.machines g = some m) (hi : composeIno m.inoTag m.inoNext = some i) :
    i ∉ s.minted := by
  intro hmem
  obtain ⟨g', m', c, hm', hi', hlt⟩ := hinv.below hmem
  obtain ⟨htag, rfl⟩ := composeIno_inj hi' hi
  obtain rfl := hinv.tags.distinct hm' hm htag
  obtain rfl := Option.some.inj (hm.symm.trans hm')
  exact absurd hlt (lt_irrefl _)

section Commit

variable {m m' : Machine} {entry : Entry} {ops : List StoreOp}

/-- A commit moves its machine's counter up, and all others stay. -/
lemma commit_below (hinv : FamilyInv s) (hm : s.node.machines m.group = some m)
    (heff : m.Effect blake3 s.node.store entry ops m') (ops' : List StoreOp) {i : UInt64}
    (hi : i ∈ s.minted ++ (m.mints s.node.store entry).toList) :
    ∃ g m₁ c, (s.node.commit m' entry ops').machines g = some m₁
      ∧ composeIno m₁.inoTag c = some i ∧ c.toNat < m₁.inoNext.toNat := by
  obtain ⟨hgroup, htag⟩ := heff.group_eq
  have hown : (s.node.commit m' entry ops').machines m.group
      = some (m'.regauge (s.node.store.applyBatch ops') entry ops') := by
    rw [Node.commit_machines, if_pos hgroup.symm]
  have hold : i ∈ s.minted → m.inoNext.toNat ≤ m'.inoNext.toNat → ∃ g m₁ c,
      (s.node.commit m' entry ops').machines g = some m₁ ∧ composeIno m₁.inoTag c = some i
        ∧ c.toNat < m₁.inoNext.toNat := by
    intro hi hle
    obtain ⟨g, m₁, c, hm₁, hc, hlt⟩ := hinv.below hi
    by_cases hg : g = m.group
    · obtain rfl : m = m₁ := Option.some.inj (hm.symm.trans (hg ▸ hm₁))
      exact ⟨m.group, _, c, hown, by simpa [htag] using hc, by simpa using hlt.trans_le hle⟩
    · refine ⟨g, m₁, c, ?_, hc, hlt⟩
      rw [Node.commit_machines, if_neg (hgroup ▸ hg), hm₁]
  rcases heff.mints_cases with ⟨hnone, hnext⟩ | ⟨j, op, hp, hcreates, hsome, hj, hnext⟩
  · rw [hnone, Option.toList_none, List.append_nil] at hi
    exact hold hi (by rw [hnext])
  · have hsucc := toNat_succ_of_composeIno hj
    rw [hsome, Option.toList_some] at hi
    rcases List.mem_append.mp hi with hi | hi
    · exact hold hi (by rw [hnext]; omega)
    · obtain rfl := List.mem_singleton.mp hi
      refine ⟨m.group, _, m.inoNext, hown, by simpa [htag] using hj, ?_⟩
      rw [Machine.regauge_inoNext, hnext]
      omega

/-- A commit reserves at most one tag, for the child of a split. -/
lemma commit_tags (hinv : FamilyInv s) (hm : s.node.machines m.group = some m)
    (heff : m.Effect blake3 s.node.store entry ops m') (hdata : entry.dataOnly = true)
    (hfresh : ∀ t ∈ m.tags entry, t ∉ s.tags) (last : Bool) :
    TagInv (s.node.commit m' entry (ops ++ m'.appliedShare entry last))
      (s.tags ++ (m.tags entry).toList) := by
  have hsame : SameTags s.node (s.node.commit m' entry (ops ++ m'.appliedShare entry last)) :=
    .commit hm heff
  rcases heff.tag_records hdata last with ⟨hnone, hrec⟩ | ⟨op, hsome, hrec, hpend⟩
  · rw [hnone, Option.toList_none, List.append_nil]
    refine hinv.tags.keep hsame (fun g => hrec g _ (Or.inl rfl)) fun hawait => ?_
    refine ⟨?_, hsame.unstarted hawait.2⟩
    rw [← readPendingSplit_congr (hrec _ _ (Or.inr rfl))]
    exact hawait.1
  · rw [hsome, Option.toList_some]
    exact hinv.tags.seed hsame (hfresh _ hsome) hrec fun hawait =>
      (hpend hawait.1).imp_left fun hread => ⟨hread, hsame.unstarted hawait.2⟩

/-- **One committed entry keeps the invariant.** -/
lemma commit (hinv : FamilyInv s) (hm : s.node.machines m.group = some m)
    (heff : m.Effect blake3 s.node.store entry ops m')
    (hraw : entry.isRaw = false)
    (hfresh : ∀ t ∈ m.tags entry, t ∉ s.tags)
    (hguard : ∀ op ∈ entry.hierOp,
      (op.creates s.node.store = true → ¬ (m.inoTag = 0 ∧ m.inoNext = 1))
        ∧ ∀ child ∈ op.linked, child = ROOT_INO → child ∈ s.minted) (last : Bool) :
    FamilyInv ⟨s.node.commit m' entry (ops ++ m'.appliedShare entry last),
      s.minted ++ (m.mints s.node.store entry).toList, s.tags ++ (m.tags entry).toList⟩ where
  tags := by
    refine hinv.commit_tags hm heff ?_ hfresh last
    unfold Entry.dataOnly
    split
    · next batch hp => simp [Entry.isRaw, hp] at hraw
    · rfl
  below := hinv.commit_below hm heff _
  nodup := by
    rcases heff.mints_cases with ⟨hnone, -⟩ | ⟨i, op, hp, hcreates, hsome, hi, -⟩
    · rw [hnone, Option.toList_none, List.append_nil]
      exact hinv.nodup
    · rw [hsome, Option.toList_some, List.nodup_append_comm]
      exact List.nodup_cons.mpr ⟨hinv.next_notMem hm hi, hinv.nodup⟩
  notRoot := by
    rcases heff.mints_cases with ⟨hnone, -⟩ | ⟨i, op, hp, hcreates, hsome, hi, -⟩
    · rw [hnone, Option.toList_none, List.append_nil]
      exact hinv.notRoot
    · have hroot := (hguard op (by simp [Entry.hierOp, hp])).1 hcreates
      rw [hsome, Option.toList_some, List.mem_append, List.mem_singleton, not_or]
      exact ⟨hinv.notRoot, (composeIno_ne_root hi hroot).symm⟩
  links {key d} hget := by
    rcases heff.dir_get hraw hget with hold | ⟨b, i, n, ts, hp⟩
    · exact hinv.links hold
    · intro hroot
      exact hinv.notRoot (hroot ▸ (hguard _ hp).2 d.ino rfl hroot)

end Commit

/-- An entry that errs mints nothing and hands out no tag. -/
lemma mints_of_error {store : MetaStore} {m : Machine} {entry : Entry} {e : MetaStoreError}
    (h : m.entryOps blake3 store entry = .error e) :
    m.mints store entry = none ∧ m.tags entry = none := by
  cases hp : entry.payload with
  | Blank => simp [Machine.entryOps, hp] at h
  | Membership ms => simp [Machine.entryOps, hp] at h
  | Normal n =>
    cases n with
    | StoreOps batch => simp [Machine.entryOps, hp] at h
    | Split op => simp [Machine.entryOps, hp] at h
    | Flat op => simp [Machine.mints, Machine.tags, hp]
    | Hier op =>
      cases ha : Hier.apply store op m.delqNext ⟨m.inoTag, m.inoNext⟩ with
      | error e => simp [Machine.mints, Machine.tags, hp, ha]
      | ok r => simp [Machine.entryOps, hp, ha] at h

/-- **One step of the family keeps the invariant.** -/
lemma step (hinv : FamilyInv s) {a : NodeStep} (hhier : a.isHierStep = true)
    (hfresh : FreshTag s a) (hguard : InodeGuard s a) : FamilyInv (s.step blake3 a) := by
  rcases s.node.step_cases blake3 a with ⟨hstep, herr⟩ | ⟨g, entry, last, m, ops, response, m',
    rfl, hm, heff, hstep⟩ | ⟨parent, pending, m, rfl, hread, hnone, hnew, hstep⟩
    | ⟨parent, rfl, hstep⟩
  · suffices hs : s.step blake3 a = s by rwa [hs]
    cases a with
    | apply g entry last =>
      cases hm : s.node.machines g with
      | none => simp [FamilyRun.step, hstep, hm]
      | some m =>
        obtain ⟨e, he⟩ := herr g entry last m rfl hm
        simp [FamilyRun.step, hstep, hm, mints_of_error he]
    | startChild parent => simp only [FamilyRun.step, hstep]
    | clearPending parent => simp only [FamilyRun.step, hstep]
  · have hg := s.node.group_eq g m hm
    subst hg
    simp only [FamilyRun.step, hstep, hm, Option.bind_some]
    refine hinv.commit hm (Machine.entryOps_effect heff) ?_ (hfresh m hm) (hguard m hm) last
    simpa [NodeStep.isHierStep] using hhier
  · simp only [FamilyRun.step, hstep]
    obtain ⟨hgroup, htag⟩ : m.group = pending.childGroup
        ∧ m.inoTag = readU32 s.node.store (inoTagKey pending.childGroup) := by
      unfold Machine.new at hnew
      split at hnew
      · cases hnew
      · obtain rfl := Except.ok.inj hnew
        exact ⟨rfl, rfl⟩
    refine ⟨hinv.tags.start hread hnone hgroup htag, fun hi => ?_, hinv.nodup, hinv.notRoot,
      hinv.links⟩
    obtain ⟨g, m₁, c, hm₁, hc, hlt⟩ := hinv.below hi
    refine ⟨g, m₁, c, ?_, hc, hlt⟩
    have hg : g ≠ m.group := by
      rintro rfl
      rw [hgroup, hnone] at hm₁
      cases hm₁
    simp [Node.put, hg, hm₁]
  · simp only [FamilyRun.step, hstep]
    have hsame : SameTags s.node { s.node with store := clearPendingSplit s.node.store parent } :=
      ⟨fun h => ⟨_, h, rfl⟩, id⟩
    refine ⟨hinv.tags.keep hsame (fun g => ?_) (·.of_clear), hinv.below, hinv.nodup, hinv.notRoot,
      fun hget => ?_⟩
    · exact (Node.get_clearPendingSplit _ _ _ _).trans (if_neg (by simp))
    · exact hinv.links ((Node.get_clearPendingSplit_of_ne _ _ (by decide) _).symm.trans hget)

lemma init {store : MetaStore} (hseed : Seeded store) (m : Machine) :
    FamilyInv (.init store m) := by
  have hget : ∀ key, store.get .Applied key = none := fun key => by
    rw [MetaStore.get, hseed.2 _ (by decide)]
    rfl
  have hrunning : ∀ {g m'}, (Node.running store m).machines g = some m' → g = m.group ∧ m' = m := by
    intro g m' h
    rcases Node.put_eq_some h with hm | ⟨-, hidle⟩
    · exact hm
    · cases hidle
  refine ⟨⟨?_, ?_, ?_, ?_, ?_⟩, ?_, List.nodup_nil, List.not_mem_nil, ?_⟩
  · intro g m' h
    exact List.mem_singleton.mpr (congrArg _ (hrunning h).2)
  · intro g g' m₁ m₂ h h' _
    exact (hrunning h).1.trans (hrunning h').1.symm
  · intro g t _ h
    exact absurd (h.symm.trans (hget _)) (by simp)
  · intro g g' t _ _ h
    exact absurd (h.symm.trans (hget _)) (by simp)
  · intro parent pending h
    have hread : readPendingSplit store parent = .ok none := by
      simp [readPendingSplit, readBookkeeping, hget]
    exact absurd (h.1.symm.trans hread) (by simp)
  · intro i hi
    cases hi
  · intro key d h
    obtain ⟨sentinel, hs⟩ := hseed.1 (key, _) ((OrdMap.mem_toList_iff _ _ _).mpr h)
    cases hs

end FamilyInv

/-- **Inodes are unique.**  In every run of a family that starts from one group over a seeded store,
where each split hands out a fresh tag: the inodes minted by all groups are pairwise distinct, none
is the root's, and no walk along directory entries comes back to the root. -/
theorem minted_unique (blake3 : Bytes → BitVec 256) (store : MetaStore) (hseed : Seeded store)
    (m : Machine) (steps : List NodeStep) (hhier : ∀ a ∈ steps, a.isHierStep = true)
    (hfresh : Along (FamilyRun.step blake3) FreshTag (.init store m) steps)
    (hguard : Along (FamilyRun.step blake3) InodeGuard (.init store m) steps) :
    let s := run (FamilyRun.step blake3) (.init store m) steps
    s.minted.Nodup ∧ ROOT_INO ∉ s.minted
      ∧ ∀ b, ¬ Relation.TransGen (DirEdge s.node.store b) ROOT_INO ROOT_INO := by
  intro s
  have hinv : FamilyInv s := by
    refine ((hfresh.and hguard).and_forall hhier).invariant ?_ (FamilyInv.init hseed m)
    rintro t a ht ⟨hh, hf, hg⟩
    exact ht.step hh hf hg
  refine ⟨hinv.nodup, hinv.notRoot, fun b hwalk => ?_⟩
  -- the last edge of the walk would be an entry for the root
  obtain ⟨j, -, n, hedge⟩ := Relation.TransGen.tail'_iff.mp hwalk
  exact hinv.links hedge rfl

/-- The group makes the directory `a`, splits at `m`, and its child makes the directory `z`: the
inodes are 0 and, under tag 1, 2^48. -/
theorem minted_unique_demo :
    let s := run (FamilyRun.step fun _ => 0) (.init demoRoot (demoMachine .Hier))
      [demoApply (.Hier (.MkdirSentinel 1 ROOT_INO [0x61] 0)),
        demoApply (.Hier (.MkdirLink 1 ROOT_INO [0x61] 0 0)),
        demoSplit (hierRoutingKey ROOT_INO [0x6d]), .startChild 1, .clearPending 1,
        .apply 2 ⟨⟨1, 1, 1⟩, .Normal (.Hier (.MkdirSentinel 1 ROOT_INO [0x7a] 0))⟩ true,
        .apply 2 ⟨⟨1, 1, 2⟩, .Normal (.Hier (.MkdirLink 1 ROOT_INO [0x7a] (2 ^ 48) 0))⟩ true]
    s.minted = [0, 2 ^ 48] ∧ s.minted.Nodup ∧ ROOT_INO ∉ s.minted
      ∧ ∀ b, ¬ Relation.TransGen (DirEdge s.node.store b) ROOT_INO ROOT_INO := by
  refine ⟨by decide +kernel, ?_⟩
  exact minted_unique (fun _ => 0) demoRoot seeded_demoRoot (demoMachine .Hier) _
    (by decide) (by decide +kernel) (by decide +kernel)

/-- The bootstrap group makes two directories.  The second takes inode 1, which is the root's: its
sentinel is found, and the link makes the root its own child. -/
theorem mint_reaches_root :
    let steps := [demoApply (.Hier (.MkdirSentinel 1 ROOT_INO [0x61] 0)),
      demoApply (.Hier (.MkdirLink 1 ROOT_INO [0x61] 0 0)),
      demoApply (.Hier (.MkdirSentinel 1 ROOT_INO [0x62] 0)),
      demoApply (.Hier (.MkdirLink 1 ROOT_INO [0x62] 1 0))]
    let s := run (FamilyRun.step fun _ => 0) (.init demoRoot (demoMachine .Hier)) steps
    Seeded demoRoot
      ∧ Along (FamilyRun.step fun _ => 0) FreshTag (.init demoRoot (demoMachine .Hier)) steps
      ∧ s.minted = [0, ROOT_INO]
      ∧ Relation.TransGen (DirEdge s.node.store 1) ROOT_INO ROOT_INO := by
  refine ⟨seeded_demoRoot, by decide +kernel, by decide +kernel, ?_⟩
  exact .single ⟨[0x62], by decide +kernel⟩

end Epoch
