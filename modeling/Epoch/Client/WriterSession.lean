import Epoch.Lib.Run
import Epoch.Store.ExtentMeta

/-!
# The writer session (`epoch-client/src/writer_token.rs`, `epoch-proto/src/id.rs`)

A gateway mints blob ids locally, from a token and a counter under one mutex.  Tokens come from PD,
and `register_writer` is called with the mutex released, so any number of calls can be between two of
their critical sections at a time.

A call is a `Caller`, whose constructors are the places at which it can be interrupted; an event of a
run starts a call, lets one of them take its next step, or gives one the answer of the token source.
The session keeps no record of the ids it handed out, so `Sessions` does: which tokens the source
returned, which ids `next_blob_id` returned, and which of these were resolved after that.

`Minting` is what every schedule preserves as long as the source returns no token twice: tokens that
callers hold and did not install yet are held by one caller each and are new, and of the ids of the
current token each one is below the counter and in flight or resolved.  `blob_ids_unique` reads it.
-/

namespace Epoch

/-! ## Blob ids -/

abbrev WriterToken := UInt32

namespace BlobId

def new (token : WriterToken) (seq : UInt32) : BlobId := (token.toUInt64 <<< 32) ||| seq.toUInt64

/-- The high 32 bits. -/
def writerToken (blob : BlobId) : WriterToken := (blob >>> 32).toUInt32

/-- The low 32 bits. -/
def seq (blob : BlobId) : UInt32 := blob.toUInt32

lemma toNat_new (token : WriterToken) (seq : UInt32) :
    (new token seq).toNat = token.toNat * 2 ^ 32 + seq.toNat := by
  have hseq := seq.toNat_lt
  have htoken := token.toNat_lt
  have hshift : (token.toUInt64 <<< 32).toNat = token.toNat <<< 32 := by
    rw [UInt64.toNat_shiftLeft]
    simp only [UInt32.toNat_toUInt64, UInt64.reduceToNat, Nat.shiftLeft_eq, Nat.reduceMod]
    omega
  rw [new, UInt64.toNat_or, hshift, UInt32.toNat_toUInt64, ← Nat.shiftLeft_add_eq_or_of_lt hseq,
    Nat.shiftLeft_eq]

@[simp] lemma writerToken_new (token : WriterToken) (seq : UInt32) :
    writerToken (new token seq) = token := by
  have hseq := seq.toNat_lt
  have htoken := token.toNat_lt
  rw [← UInt32.toNat_inj, writerToken, UInt64.toNat_toUInt32, UInt64.toNat_shiftRight, toNat_new]
  simp only [UInt64.reduceToNat, Nat.shiftRight_eq_div_pow, Nat.reduceMod]
  omega

@[simp] lemma seq_new (token : WriterToken) (s : UInt32) : seq (new token s) = s := by
  have hseq := s.toNat_lt
  rw [← UInt32.toNat_inj, seq, UInt64.toNat_toUInt32, toNat_new]
  omega

lemma new_writerToken_seq (blob : BlobId) : new (writerToken blob) (seq blob) = blob := by
  have hblob := blob.toNat_lt
  rw [← UInt64.toNat_inj, toNat_new, writerToken, seq, UInt64.toNat_toUInt32,
    UInt64.toNat_toUInt32, UInt64.toNat_shiftRight]
  simp only [UInt64.reduceToNat, Nat.shiftRight_eq_div_pow, Nat.reduceMod]
  omega

lemma new_inj {token token' : WriterToken} {s s' : UInt32} :
    new token s = new token' s' ↔ token = token' ∧ s = s' := by
  refine ⟨fun h => ?_, by rintro ⟨rfl, rfl⟩; rfl⟩
  have htoken := congrArg writerToken h
  have hseq := congrArg seq h
  simp only [writerToken_new, seq_new] at htoken hseq
  exact ⟨htoken, hseq⟩

end BlobId

namespace Client

inductive ClientError
  | NoLeader (attempts : ℕ) (lastError : String)
  | NotFound (message : String)
  | InvalidArgument (message : String)
  | Rpc (code message : String)
  | Endpoint (endpoint : String)
  | WriterStale (sinceMillis : UInt64)
  | Internal (message : String)
deriving DecidableEq

/-! ## The critical sections -/

structure TokenState where
  token : WriterToken
  nextSeq : UInt32
  exhausted : Bool
  inFlight : Finset UInt32
deriving DecidableEq

namespace TokenState

variable (state : TokenState)

def fresh (token : WriterToken) : TokenState := ⟨token, 0, false, ∅⟩

/-- The fast path of `next_blob_id`; `none` when the token is spent. -/
def mint : Option (BlobId × TokenState) :=
  if state.exhausted then none
  else
    let seq := state.nextSeq
    let counted :=
      -- `checked_add` fails at the last sequence number, which is still handed out
      if seq.toNat + 1 < 2 ^ 32 then { state with nextSeq := seq + 1 }
      else { state with exhausted := true }
    some (BlobId.new state.token seq, { counted with inFlight := insert seq state.inFlight })

/-- The slow path's second section: somebody else may have rotated in the meantime. -/
def installIfSpent (token : WriterToken) : TokenState :=
  if state.exhausted then fresh token else state

def fence : TokenState := { state with exhausted := true }

def resolveBlob (blob : BlobId) : TokenState :=
  if BlobId.writerToken blob = state.token then
    { state with inFlight := state.inFlight.erase (BlobId.seq blob) }
  else state

def commitWatermark : WriterToken × ℤ :=
  (state.token,
    match state.inFlight.min with
    | some minInFlight => (minInFlight.toNat : ℤ) - 1
    | none => (state.nextSeq.toNat : ℤ) - 1)

end TokenState

structure WriterSession where
  staleAfterMillis : UInt64
  state : TokenState
  lastHeartbeatMillis : UInt64
deriving DecidableEq

namespace WriterSession

def establish (answer : Except ClientError WriterToken) (staleAfterMillis nowMillis : UInt64) :
    Except ClientError WriterSession :=
  answer.map fun token => ⟨staleAfterMillis, .fresh token, nowMillis⟩

def recordHeartbeatOk (session : WriterSession) (nowMillis : UInt64) : WriterSession :=
  { session with lastHeartbeatMillis := nowMillis }

/-- The liveness gate of `next_blob_id`. -/
def idle (session : WriterSession) (nowMillis : UInt64) : UInt64 :=
  if session.lastHeartbeatMillis ≤ nowMillis then nowMillis - session.lastHeartbeatMillis else 0

end WriterSession

/-! ## Calls in progress -/

inductive Caller
  /-- In the loop of `next_blob_id`, before the fast path. -/
  | minting
  /-- The token was spent; `register_writer` is out. -/
  | mintRegister
  | mintInstall (fresh : WriterToken)
  | minted (result : Except ClientError BlobId)
  /-- In `force_rotate`, before the token is fenced. -/
  | rotating (nowMillis : UInt64)
  | rotateRegister (nowMillis : UInt64)
  | rotateInstall (nowMillis : UInt64) (fresh : WriterToken)
  /-- The token is installed, the heartbeat not recorded. -/
  | rotateRecord (nowMillis : UInt64)
  | rotated (result : Except ClientError Unit)
deriving DecidableEq

/-- The token a caller was given and has not dealt with yet. -/
def Caller.holds : Caller → Option WriterToken
  | .mintInstall fresh => some fresh
  | .rotateInstall _ fresh => some fresh
  | _ => none

/-- A session, the calls made on it, and what they did so far. -/
structure Sessions where
  session : WriterSession
  callers : List Caller
  /-- Tokens the source returned, the first one to `establish`. -/
  returned : List WriterToken
  /-- What `next_blob_id` returned. -/
  minted : List BlobId
  /-- Minted blobs that `resolve_blob` was called on since. -/
  resolved : List BlobId
deriving DecidableEq

inductive Event
  | nextBlobId (nowMillis : UInt64)
  | forceRotate (nowMillis : UInt64)
  /-- A caller takes the lock, or makes its last store. -/
  | advance (i : ℕ)
  /-- `register_writer` returns to a caller. -/
  | registered (i : ℕ) (answer : Except ClientError WriterToken)
  | resolveBlob (blob : BlobId)
  | recordHeartbeatOk (nowMillis : UInt64)

namespace Sessions

/-- Right after `establish` returned the session: its first token is the one the source returned. -/
def established (session : WriterSession) : Sessions where
  session
  callers := []
  returned := [session.state.token]
  minted := []
  resolved := []

variable (s : Sessions)

def setCaller (i : ℕ) (caller : Caller) : Sessions := { s with callers := s.callers.set i caller }

def setState (state : TokenState) : Sessions := { s with session := { s.session with state } }

def advance (i : ℕ) : Caller → Sessions
  | .minting =>
    match s.session.state.mint with
    | some (blob, state) =>
      { (s.setState state).setCaller i (.minted (.ok blob)) with minted := blob :: s.minted }
    | none => s.setCaller i .mintRegister
  | .mintInstall fresh => (s.setState (s.session.state.installIfSpent fresh)).setCaller i .minting
  | .rotating now => (s.setState s.session.state.fence).setCaller i (.rotateRegister now)
  | .rotateInstall now fresh => (s.setState (.fresh fresh)).setCaller i (.rotateRecord now)
  | .rotateRecord now =>
    { s.setCaller i (.rotated (.ok ())) with session := s.session.recordHeartbeatOk now }
  | .mintRegister | .rotateRegister _ | .minted _ | .rotated _ => s

def registered (i : ℕ) (answer : Except ClientError WriterToken) : Caller → Sessions
  | .mintRegister =>
    match answer with
    | .ok fresh => { s.setCaller i (.mintInstall fresh) with returned := fresh :: s.returned }
    | .error err => s.setCaller i (.minted (.error err))
  | .rotateRegister now =>
    match answer with
    | .ok fresh =>
      { s.setCaller i (.rotateInstall now fresh) with returned := fresh :: s.returned }
    | .error err => s.setCaller i (.rotated (.error err))
  | _ => s

def nextBlobId (nowMillis : UInt64) : Caller :=
  let idle := s.session.idle nowMillis
  if s.session.staleAfterMillis < idle then .minted (.error (.WriterStale idle)) else .minting

def step : Event → Sessions
  | .nextBlobId now => { s with callers := s.callers ++ [s.nextBlobId now] }
  | .forceRotate now => { s with callers := s.callers ++ [.rotating now] }
  | .advance i => ((s.callers[i]?).map (s.advance i)).getD s
  | .registered i answer => ((s.callers[i]?).map (s.registered i answer)).getD s
  | .resolveBlob blob =>
    { s.setState (s.session.state.resolveBlob blob) with
      resolved := if blob ∈ s.minted then blob :: s.resolved else s.resolved }
  | .recordHeartbeatOk now => { s with session := s.session.recordHeartbeatOk now }

lemma returned_step (event : Event) : s.returned <:+ (s.step event).returned := by
  cases event with
  | advance i =>
    cases hi : s.callers[i]? with
    | none => simp [step, hi]
    | some caller =>
      simp only [step, hi, Option.map_some, Option.getD_some]
      cases caller with
      | minting =>
        cases hmint : s.session.state.mint with
        | none => simp [advance, hmint, setCaller]
        | some m => simp [advance, hmint, setCaller, setState]
      | _ => simp [advance, setCaller, setState]
  | registered i answer =>
    cases hi : s.callers[i]? with
    | none => simp [step, hi]
    | some caller =>
      simp only [step, hi, Option.map_some, Option.getD_some]
      cases caller with
      | mintRegister | rotateRegister => cases answer <;> simp [registered, setCaller]
      | _ => simp [registered]
  | _ => simp [step, setState]

/-! ## What every schedule preserves -/

/-- Caller `i` holds a token it has not dealt with. -/
def Holding (i : ℕ) (token : WriterToken) : Prop :=
  ∃ caller, s.callers[i]? = some caller ∧ caller.holds = some token

variable {s}

lemma holding_setCaller {i j : ℕ} {caller : Caller} {token : WriterToken}
    (h : (s.setCaller i caller).Holding j token) :
    j = i ∧ caller.holds = some token ∨ j ≠ i ∧ s.Holding j token := by
  obtain ⟨c, hc, hholds⟩ := h
  by_cases hij : j = i
  · subst hij
    have hset : (s.callers.set j caller)[j]? = some c := hc
    have hlt : j < s.callers.length := by
      have := (List.getElem?_eq_some_iff.mp hset).1
      simpa using this
    rw [List.getElem?_set_self hlt] at hset
    exact Or.inl ⟨rfl, by rw [Option.some.inj hset]; exact hholds⟩
  · have hset : (s.callers.set i caller)[j]? = some c := hc
    rw [List.getElem?_set_ne (Ne.symm hij)] at hset
    exact Or.inr ⟨hij, c, hset, hholds⟩

lemma holding_append {j : ℕ} {caller : Caller} {token : WriterToken} (hnone : caller.holds = none)
    (h : Holding { s with callers := s.callers ++ [caller] } j token) : s.Holding j token := by
  obtain ⟨c, hc, hholds⟩ := h
  have hget : (s.callers ++ [caller])[j]? = some c := hc
  rcases List.mem_append.mp (List.mem_of_getElem? hget) with _ | hmem
  · rcases lt_or_ge j s.callers.length with hlt | hge
    · rw [List.getElem?_append_left hlt] at hget
      exact ⟨c, hget, hholds⟩
    · rw [List.getElem?_append_right hge] at hget
      rw [List.mem_singleton.mp (List.mem_of_getElem? hget), hnone] at hholds
      cases hholds
  · rw [List.mem_singleton.mp hmem, hnone] at hholds
    cases hholds

/-- Tokens are installed once, and the ids of the installed one are counted and tracked. -/
structure Minting (s : Sessions) : Prop where
  current : s.session.state.token ∈ s.returned
  issued : ∀ blob ∈ s.minted, BlobId.writerToken blob ∈ s.returned
  held : ∀ i token, s.Holding i token → token ∈ s.returned ∧ token ≠ s.session.state.token
    ∧ ∀ blob ∈ s.minted, BlobId.writerToken blob ≠ token
  heldOnce : ∀ i j token, s.Holding i token → s.Holding j token → i = j
  unique : s.minted.Nodup
  counted : ∀ seq, BlobId.new s.session.state.token seq ∈ s.minted →
    s.session.state.exhausted = false → seq < s.session.state.nextSeq
  tracked : ∀ seq, BlobId.new s.session.state.token seq ∈ s.minted →
    seq ∈ s.session.state.inFlight ∨ BlobId.new s.session.state.token seq ∈ s.resolved

lemma minting_established (session : WriterSession) : Minting (established session) where
  current := List.mem_singleton_self _
  issued := fun _ h => absurd h List.not_mem_nil
  held := fun _ _ ⟨_, h, _⟩ => by simp [established] at h
  heldOnce := fun _ _ _ ⟨_, h, _⟩ => by simp [established] at h
  unique := List.nodup_nil
  counted := fun _ h => absurd h List.not_mem_nil
  tracked := fun _ h => absurd h List.not_mem_nil

namespace Minting

/-- Callers may move as long as none of them comes by a token. -/
lemma callers (h : Minting s) {cs : List Caller}
    (hsub : ∀ j token, Holding { s with callers := cs } j token → s.Holding j token) :
    Minting { s with callers := cs } :=
  ⟨h.current, h.issued, fun i token hi => h.held i token (hsub i token hi),
    fun i j token hi hj => h.heldOnce i j token (hsub i token hi) (hsub j token hj),
    h.unique, h.counted, h.tracked⟩

lemma setCaller (h : Minting s) (i : ℕ) {caller : Caller} (hnone : caller.holds = none) :
    Minting (s.setCaller i caller) := by
  refine h.callers fun j token hj => ?_
  rcases holding_setCaller hj with ⟨_, hsome⟩ | ⟨_, hheld⟩
  · rw [hnone] at hsome
    cases hsome
  · exact hheld

/-- The source returns a token it never returned before to caller `i`. -/
lemma receive (h : Minting s) (i : ℕ) {caller : Caller} {fresh : WriterToken}
    (hholds : caller.holds = some fresh) (hnew : fresh ∉ s.returned) :
    Minting { s.setCaller i caller with returned := fresh :: s.returned } where
  current := List.mem_cons_of_mem fresh h.current
  issued := fun blob hblob => List.mem_cons_of_mem fresh (h.issued blob hblob)
  held := by
    intro j token hj
    rcases holding_setCaller hj with ⟨_, hsome⟩ | ⟨_, hheld⟩
    · rw [hholds] at hsome
      cases hsome
      exact ⟨List.mem_cons_self, fun heq => hnew (heq ▸ h.current),
        fun blob hblob heq => hnew (heq ▸ h.issued blob hblob)⟩
    · obtain ⟨hret, hne, hids⟩ := h.held j token hheld
      exact ⟨List.mem_cons_of_mem fresh hret, hne, hids⟩
  heldOnce := by
    intro j k token hj hk
    rcases holding_setCaller hj with ⟨hji, hsome⟩ | ⟨_, hheldj⟩ <;>
      rcases holding_setCaller hk with ⟨hki, hsome'⟩ | ⟨_, hheldk⟩
    · rw [hji, hki]
    · rw [hholds] at hsome
      cases hsome
      exact absurd (h.held k _ hheldk).1 hnew
    · rw [hholds] at hsome'
      cases hsome'
      exact absurd (h.held j _ hheldj).1 hnew
    · exact h.heldOnce j k token hheldj hheldk
  unique := h.unique
  counted := h.counted
  tracked := h.tracked

/-- A caller installs the token it holds: no id of it exists yet. -/
lemma install (h : Minting s) {i : ℕ} {caller : Caller} {fresh : WriterToken}
    (hi : s.Holding i fresh) (hnone : caller.holds = none) :
    Minting ((s.setState (.fresh fresh)).setCaller i caller) := by
  obtain ⟨hret, -, hids⟩ := h.held i fresh hi
  have hnot : ∀ seq, BlobId.new fresh seq ∉ s.minted := fun seq hmem =>
    hids _ hmem (BlobId.writerToken_new fresh seq)
  have hrest : ∀ j token,
      ((s.setState (.fresh fresh)).setCaller i caller).Holding j token →
        j ≠ i ∧ s.Holding j token := by
    intro j token hj
    rcases holding_setCaller hj with ⟨_, hsome⟩ | hheld
    · rw [hnone] at hsome
      cases hsome
    · exact hheld
  refine ⟨hret, h.issued, fun j token hj => ?_, fun j k token hj hk => ?_, h.unique,
    fun seq hmem => absurd hmem (hnot seq), fun seq hmem => absurd hmem (hnot seq)⟩
  · obtain ⟨hne, hheld⟩ := hrest j token hj
    obtain ⟨hret', -, hids'⟩ := h.held j token hheld
    refine ⟨hret', fun heq => hne ?_, hids'⟩
    have hsame : token = fresh := heq
    exact h.heldOnce j i fresh (hsame ▸ hheld) hi
  · exact h.heldOnce j k token (hrest j token hj).2 (hrest k token hk).2

lemma fence (h : Minting s) : Minting (s.setState s.session.state.fence) :=
  ⟨h.current, h.issued, h.held, h.heldOnce, h.unique, fun _ _ hlive => (nomatch hlive),
    h.tracked⟩

end Minting

lemma mint_eq_some {state state' : TokenState} {blob : BlobId}
    (h : state.mint = some (blob, state')) :
    state.exhausted = false ∧ blob = BlobId.new state.token state.nextSeq
      ∧ state'.token = state.token ∧ state'.inFlight = insert state.nextSeq state.inFlight
      ∧ (state'.exhausted = false → state'.nextSeq.toNat = state.nextSeq.toNat + 1) := by
  cases hex : state.exhausted with
  | true => simp [TokenState.mint, hex] at h
  | false =>
    by_cases hroom : state.nextSeq.toNat + 1 < 2 ^ 32
    · simp only [TokenState.mint, hex, Bool.false_eq_true, if_false, if_pos hroom,
        Option.some.injEq, Prod.mk.injEq] at h
      obtain ⟨rfl, rfl⟩ := h
      refine ⟨rfl, rfl, rfl, rfl, fun _ => ?_⟩
      show (state.nextSeq + 1).toNat = _
      rw [UInt32.toNat_add]
      exact Nat.mod_eq_of_lt hroom
    · simp only [TokenState.mint, hex, Bool.false_eq_true, if_false, if_neg hroom,
        Option.some.injEq, Prod.mk.injEq] at h
      obtain ⟨rfl, rfl⟩ := h
      exact ⟨rfl, rfl, rfl, rfl, fun hlive => by cases hlive⟩

namespace Minting

lemma mint (h : Minting s) {blob : BlobId} {state : TokenState}
    (hmint : s.session.state.mint = some (blob, state)) :
    Minting { s.setState state with minted := blob :: s.minted } := by
  obtain ⟨hlive, rfl, htoken, hflight, hnext⟩ := mint_eq_some hmint
  have hnew : BlobId.new s.session.state.token s.session.state.nextSeq ∉ s.minted := fun hmem =>
    absurd (h.counted _ hmem hlive) (lt_irrefl _)
  refine ⟨?_, fun blob hblob => ?_, fun i token hi => ?_, h.heldOnce,
    List.nodup_cons.mpr ⟨hnew, h.unique⟩, fun seq hmem hlive' => ?_, fun seq hmem => ?_⟩
  · show state.token ∈ s.returned
    rw [htoken]
    exact h.current
  · rcases List.mem_cons.mp hblob with rfl | hblob
    · rw [BlobId.writerToken_new]
      exact h.current
    · exact h.issued blob hblob
  · obtain ⟨hret, hne, hids⟩ := h.held i token hi
    refine ⟨hret, fun heq => hne (heq.trans htoken), fun blob hblob => ?_⟩
    rcases List.mem_cons.mp hblob with rfl | hblob
    · rw [BlobId.writerToken_new]
      exact Ne.symm hne
    · exact hids blob hblob
  · have hnext := hnext hlive'
    show seq < state.nextSeq
    rw [UInt32.lt_iff_toNat_lt, hnext]
    have hmem : BlobId.new state.token seq ∈ _ :: s.minted := hmem
    rw [htoken] at hmem
    rcases List.mem_cons.mp hmem with heq | hmem
    · rw [(BlobId.new_inj.mp heq).2]
      exact Nat.lt_succ_self _
    · exact Nat.lt_succ_of_lt (UInt32.lt_iff_toNat_lt.mp (h.counted seq hmem hlive))
  · have hmem : BlobId.new state.token seq ∈ _ :: s.minted := hmem
    show seq ∈ state.inFlight ∨ BlobId.new state.token seq ∈ s.resolved
    rw [htoken] at hmem
    rw [htoken, hflight, Finset.mem_insert]
    rcases List.mem_cons.mp hmem with heq | hmem
    · exact Or.inl (Or.inl (BlobId.new_inj.mp heq).2)
    · exact (h.tracked seq hmem).imp_left Or.inr

lemma resolveBlob (h : Minting s) (blob : BlobId) : Minting (s.step (.resolveBlob blob)) := by
  by_cases hown : BlobId.writerToken blob = s.session.state.token
  · have hstate : s.session.state.resolveBlob blob = { s.session.state with
        inFlight := s.session.state.inFlight.erase (BlobId.seq blob) } := by
      rw [TokenState.resolveBlob, if_pos hown]
    simp only [step, hstate]
    refine ⟨h.current, h.issued, h.held, h.heldOnce, h.unique, h.counted, fun seq hmem => ?_⟩
    by_cases hseq : seq = BlobId.seq blob
    · right
      have hblob : BlobId.new s.session.state.token seq = blob := by
        rw [hseq, ← hown, BlobId.new_writerToken_seq]
      have hmem : BlobId.new s.session.state.token seq ∈ s.minted := hmem
      show BlobId.new s.session.state.token seq ∈ _
      rw [hblob] at hmem ⊢
      rw [if_pos hmem]
      exact List.mem_cons_self
    · rcases h.tracked seq hmem with hin | hres
      · exact Or.inl (Finset.mem_erase.mpr ⟨hseq, hin⟩)
      · right
        show BlobId.new s.session.state.token seq ∈ _
        split
        · exact List.mem_cons_of_mem blob hres
        · exact hres
  · have hstate : s.session.state.resolveBlob blob = s.session.state := by
      rw [TokenState.resolveBlob, if_neg hown]
    simp only [step, hstate]
    refine ⟨h.current, h.issued, h.held, h.heldOnce, h.unique, h.counted, fun seq hmem => ?_⟩
    refine (h.tracked seq hmem).imp_right fun hres => ?_
    show BlobId.new s.session.state.token seq ∈ _
    split
    · exact List.mem_cons_of_mem blob hres
    · exact hres

lemma advance (h : Minting s) {i : ℕ} {caller : Caller} (hi : s.callers[i]? = some caller) :
    Minting (s.advance i caller) := by
  cases caller with
  | minting =>
    cases hmint : s.session.state.mint with
    | none =>
      simp only [Sessions.advance, hmint]
      exact h.setCaller i rfl
    | some m =>
      simp only [Sessions.advance, hmint]
      exact (h.mint hmint).setCaller i rfl
  | mintInstall fresh =>
    cases hex : s.session.state.exhausted with
    | true =>
      simp only [Sessions.advance, TokenState.installIfSpent, hex, if_true]
      exact h.install ⟨_, hi, rfl⟩ rfl
    | false =>
      simp only [Sessions.advance, TokenState.installIfSpent, hex, Bool.false_eq_true, if_false]
      exact h.setCaller i rfl
  | rotating now => exact h.fence.setCaller i rfl
  | rotateInstall now fresh => exact h.install ⟨_, hi, rfl⟩ rfl
  | rotateRecord now =>
    have hset := h.setCaller i (show Caller.holds (.rotated (.ok ())) = none from rfl)
    exact ⟨hset.current, hset.issued, hset.held, hset.heldOnce, hset.unique, hset.counted,
      hset.tracked⟩
  | mintRegister | rotateRegister now | minted result | rotated result => exact h

lemma registered (h : Minting s) (i : ℕ) (caller : Caller) (answer : Except ClientError WriterToken)
    (hnodup : (s.registered i answer caller).returned.Nodup) :
    Minting (s.registered i answer caller) := by
  cases caller with
  | mintRegister =>
    cases answer with
    | ok fresh => exact h.receive i rfl (List.nodup_cons.mp hnodup).1
    | error err => exact h.setCaller i rfl
  | rotateRegister now =>
    cases answer with
    | ok fresh => exact h.receive i rfl (List.nodup_cons.mp hnodup).1
    | error err => exact h.setCaller i rfl
  | minting | mintInstall fresh | minted result | rotating now | rotateInstall now fresh
  | rotateRecord now | rotated result => exact h

lemma step (h : Minting s) (event : Event) (hnodup : (s.step event).returned.Nodup) :
    Minting (s.step event) := by
  cases event with
  | nextBlobId now =>
    refine h.callers fun j token hj => holding_append ?_ hj
    rw [Sessions.nextBlobId]
    split <;> rfl
  | forceRotate now => exact h.callers fun j token hj => holding_append rfl hj
  | advance i =>
    cases hi : s.callers[i]? with
    | none => simpa [Sessions.step, hi] using h
    | some caller => simpa [Sessions.step, hi] using h.advance hi
  | registered i answer =>
    cases hi : s.callers[i]? with
    | none => simpa [Sessions.step, hi] using h
    | some caller =>
      simp only [Sessions.step, hi, Option.map_some, Option.getD_some] at hnodup ⊢
      exact h.registered i caller answer hnodup
  | resolveBlob blob => exact h.resolveBlob blob
  | recordHeartbeatOk now =>
    exact ⟨h.current, h.issued, h.held, h.heldOnce, h.unique, h.counted, h.tracked⟩

/-- Every schedule in which the source returns no token twice keeps the books right. -/
theorem run {events : List Event} (h : Minting s)
    (hnodup : (run Sessions.step s events).returned.Nodup) :
    Minting (run Sessions.step s events) := by
  refine Along.invariant (P := fun s => s.returned.Nodup → Minting s) (G := fun _ _ => True)
    (fun s event hs _ hn => ?_) (fun _ => h) (along_of_forall (fun _ _ _ => trivial) s) hnodup
  exact (hs (hn.sublist (s.returned_step event).sublist)).step event hn

/-- The watermark is below every sequence number of the token that is neither spent nor resolved. -/
lemma resolved_of_le_watermark (h : Minting s) {seq : UInt32}
    (hmem : BlobId.new s.session.state.token seq ∈ s.minted)
    (hle : (seq.toNat : ℤ) ≤ s.session.state.commitWatermark.2) :
    BlobId.new s.session.state.token seq ∈ s.resolved := by
  refine (h.tracked seq hmem).resolve_left fun hin => ?_
  obtain ⟨least, hleast⟩ := Finset.min_of_mem hin
  have hmin : least ≤ seq := Finset.min_le_of_eq hin hleast
  have hwater : s.session.state.commitWatermark.2 = (least.toNat : ℤ) - 1 := by
    rw [TokenState.commitWatermark, hleast]
  rw [hwater] at hle
  have := UInt32.le_iff_toNat_le.mp hmin
  omega

end Minting

end Sessions

open Sessions in
/-- Whatever calls are made on a session and however their steps interleave: if the token source
returned no token twice, no blob id was handed out twice, and a watermark read now covers only
resolved blobs of the token it is paired with. -/
theorem blob_ids_unique (session : WriterSession) (events : List Event)
    (hsource : (run step (established session) events).returned.Nodup) :
    let s := run step (established session) events
    s.minted.Nodup ∧ ∀ seq, BlobId.new s.session.state.commitWatermark.1 seq ∈ s.minted →
      (seq.toNat : ℤ) ≤ s.session.state.commitWatermark.2 →
        BlobId.new s.session.state.commitWatermark.1 seq ∈ s.resolved := by
  have h := (minting_established session).run hsource
  exact ⟨h.unique, fun seq hmem hle => h.resolved_of_le_watermark hmem hle⟩

/-- Two rotations overlap a mint: caller 0 mints from token 7, callers 1 and 2 fence it, the token of
caller 2 arrives first, serves caller 3 and is replaced by that of caller 1, which serves caller 4. -/
def overlappingRotations : List Event :=
  [.nextBlobId 1, .advance 0, .forceRotate 2, .forceRotate 2, .advance 1, .advance 2,
    .registered 2 (.ok 9), .registered 1 (.ok 8), .advance 2, .nextBlobId 3, .advance 3,
    .resolveBlob (BlobId.new 7 0), .advance 1, .nextBlobId 3, .advance 4,
    .resolveBlob (BlobId.new 8 0)]

open Sessions in
theorem blob_ids_unique_demo :
    ∃ session, WriterSession.establish (.ok 7) 100 0 = .ok session ∧
      let s := run step (established session) overlappingRotations
      s.minted.Nodup ∧ s.minted = [BlobId.new 8 0, BlobId.new 9 0, BlobId.new 7 0]
        ∧ s.session.state.commitWatermark = (8, 0)
        ∧ ∀ seq, BlobId.new s.session.state.commitWatermark.1 seq ∈ s.minted →
          (seq.toNat : ℤ) ≤ s.session.state.commitWatermark.2 →
            BlobId.new s.session.state.commitWatermark.1 seq ∈ s.resolved := by
  refine ⟨⟨100, .fresh 7, 0⟩, rfl, ?_⟩
  have h := blob_ids_unique ⟨100, .fresh 7, 0⟩ overlappingRotations (by decide +kernel)
  exact ⟨h.1, by decide +kernel, by decide +kernel, h.2⟩

end Client

end Epoch
