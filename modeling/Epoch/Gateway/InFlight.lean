import Epoch.Client.WriterSession
import Epoch.Gateway.Durable
import Epoch.Lib.Lists

/-!
# Blob ids in flight (`object.rs`, `gateway.rs`, `admission.rs`)

A PUT and a part upload mint an id for every blob, write the blob, commit the metadata and take the ids off the
session's in-flight set.  They do the last only on the way to success: every error after the first mint leaves
the ids where they are, and the commit watermark of their token stays below them
(`rejected_part_stays_in_flight`).

Any number of uploads share a session.  An upload is an `PutCall`, whose phase is the place it waits at; it goes
on when a metadata answer, an id, the end of a blob's shard writes or nothing at all comes in, and in between the
others, rotations of the token and heartbeats go on as they like.

* `Follows`: what a step of the session does to ids that exist, to the in-flight set and to calls for an id;
* `Books`: the ids of an upload are in its layout, or out of the in-flight set, by the time it returns, and every
  id in flight belongs to an upload;
* `uploads_settled`: in a run without such errors no returned upload has an id in flight, and when all have
  returned the watermark is the last minted sequence number.
-/

namespace Epoch

namespace Client

namespace Sessions

/-! ## What a step of the session leaves alone -/

/-- The id counts as in flight. -/
def InFlight (s : Sessions) (blob : BlobId) : Prop :=
  BlobId.writerToken blob = s.session.state.token ∧ BlobId.seq blob ∈ s.session.state.inFlight

instance (s : Sessions) (blob : BlobId) : Decidable (s.InFlight blob) :=
  inferInstanceAs (Decidable (_ ∧ _))

end Sessions

/-- The caller may still be given an id. -/
def Caller.pending : Caller → Bool
  | .minting | .mintRegister | .mintInstall _ => true
  | _ => false

namespace Sessions

/-- Ids stay minted, results of calls stay, and what comes in flight is a new id given to a call. -/
structure Follows (s s' : Sessions) : Prop where
  minted : ∀ blob ∈ s.minted, blob ∈ s'.minted
  results : ∀ (c : ℕ) r, s.callers[c]? = some (.minted r) → s'.callers[c]? = some (.minted r)
  given : ∀ (c : ℕ) blob, s'.callers[c]? = some (.minted (.ok blob)) →
    s.callers[c]? = some (.minted (.ok blob)) ∨ blob ∈ s'.minted
  flight : ∀ blob, s'.InFlight blob → s.InFlight blob ∨ blob ∉ s.minted
    ∧ ∃ (c : ℕ) (caller : Caller), s.callers[c]? = some caller ∧ caller.pending = true
      ∧ s'.callers[c]? = some (.minted (.ok blob))
  pending : ∀ (c : ℕ) (caller : Caller), s'.callers[c]? = some caller → caller.pending = true →
    c = s.callers.length ∨ ∃ caller' : Caller, s.callers[c]? = some caller' ∧ caller'.pending = true

variable {s s' : Sessions} {i : ℕ} {caller : Caller} {blob : BlobId}

lemma getElem?_setCaller {old : Caller} (hi : s.callers[i]? = some old) (c : ℕ) :
    (s.setCaller i caller).callers[c]? = if c = i then some caller else s.callers[c]? := by
  have hlt : i < s.callers.length := (List.getElem?_eq_some_iff.mp hi).1
  by_cases hc : c = i
  · rw [if_pos hc, hc]
    exact List.getElem?_set_self hlt
  · rw [if_neg hc]
    exact List.getElem?_set_ne (Ne.symm hc)

/-- A caller moves on without a result, and the in-flight set does not grow. -/
lemma follows_setCaller {old : Caller} (hi : s.callers[i]? = some old)
    (hold : ∀ r, old ≠ .minted r) (hnew : ∀ blob, caller ≠ .minted (.ok blob))
    (hpending : caller.pending = true → old.pending = true)
    (hcallers : s'.callers = (s.setCaller i caller).callers) (hminted : s'.minted = s.minted)
    (hflight : ∀ blob, s'.InFlight blob → s.InFlight blob) : Follows s s' := by
  have hget : ∀ c, s'.callers[c]? = if c = i then some caller else s.callers[c]? := fun c => by
    rw [hcallers, getElem?_setCaller hi]
  refine ⟨fun blob h => hminted ▸ h, fun c r hr => ?_, fun c blob hb => ?_,
    fun blob hb => Or.inl (hflight blob hb), fun c new hc hp => Or.inr ?_⟩
  · rw [hget, if_neg, hr]
    rintro rfl
    exact hold r (Option.some.inj (hi.symm.trans hr))
  · rw [hget] at hb
    split_ifs at hb
    · exact absurd (Option.some.inj hb) (hnew blob)
    · exact Or.inl hb
  · rw [hget] at hc
    split_ifs at hc with hci
    · rw [← Option.some.inj hc] at hp
      exact ⟨old, hci ▸ hi, hpending hp⟩
    · exact ⟨new, hc, hp⟩

/-- A caller is added. -/
lemma follows_append (caller : Caller) (hnew : ∀ blob, caller ≠ .minted (.ok blob)) :
    Follows s { s with callers := s.callers ++ [caller] } := by
  refine ⟨fun _ h => h, fun c r hr => ?_, fun c blob hb => ?_, fun _ h => Or.inl h,
    fun c new hc hp => ?_⟩
  · exact (List.getElem?_append_left (List.getElem?_eq_some_iff.mp hr).1).trans hr
  · rcases getElem?_concat_eq_some.mp hb with hold | ⟨-, heq⟩
    · exact Or.inl hold
    · exact absurd heq (hnew blob)
  · rcases getElem?_concat_eq_some.mp hc with hold | ⟨heq, -⟩
    · exact Or.inr ⟨new, hold, hp⟩
    · exact Or.inl heq

/-- A state of the session without changes to the callers. -/
lemma follows_state (hcallers : s'.callers = s.callers) (hminted : s'.minted = s.minted)
    (hflight : ∀ blob, s'.InFlight blob → s.InFlight blob) :
    Follows s s' :=
  ⟨fun _ h => hminted ▸ h, fun c r hr => by rw [hcallers, hr],
    fun c blob hb => Or.inl (by rw [← hcallers, hb]), fun blob hb => Or.inl (hflight blob hb),
    fun c new hc hp => Or.inr ⟨new, by rw [← hcallers, hc], hp⟩⟩

lemma follows_mint (h : Minting s) (hi : s.callers[i]? = some .minting) {state : TokenState}
    (hmint : s.session.state.mint = some (blob, state)) :
    Follows s { (s.setState state).setCaller i (.minted (.ok blob)) with
      minted := blob :: s.minted } := by
  obtain ⟨hlive, rfl, htoken, hflight, -⟩ := mint_eq_some hmint
  have hnew : BlobId.new s.session.state.token s.session.state.nextSeq ∉ s.minted := fun hmem =>
    absurd (h.counted _ hmem hlive) (lt_irrefl _)
  have hget : ∀ c, (s.callers.set i (.minted (.ok
      (BlobId.new s.session.state.token s.session.state.nextSeq))))[c]?
      = if c = i then some (.minted (.ok
        (BlobId.new s.session.state.token s.session.state.nextSeq))) else s.callers[c]? :=
    fun c => getElem?_setCaller (s := s) hi c
  refine ⟨fun b hb => List.mem_cons_of_mem _ hb, fun c r hr => ?_, fun c b hb => ?_,
    fun b hb => ?_, fun c new hc hp => Or.inr ?_⟩
  · refine (hget c).trans ?_
    rw [if_neg, hr]
    rintro rfl
    rw [hi] at hr
    cases hr
  · replace hb := (hget c).symm.trans hb
    split_ifs at hb
    · rw [← Except.ok.inj (Caller.minted.inj (Option.some.inj hb))]
      exact Or.inr List.mem_cons_self
    · exact Or.inl hb
  · obtain ⟨hown, hseq⟩ := hb
    have hown : BlobId.writerToken b = state.token := hown
    have hseq : BlobId.seq b ∈ state.inFlight := hseq
    rw [hflight, Finset.mem_insert] at hseq
    rw [htoken] at hown
    rcases hseq with hseq | hseq
    · have hb : b = BlobId.new s.session.state.token s.session.state.nextSeq := by
        rw [← hown, ← hseq, BlobId.new_writerToken_seq]
      rw [hb]
      refine Or.inr ⟨hnew, i, .minting, hi, rfl, ?_⟩
      exact (hget i).trans (if_pos rfl)
    · exact Or.inl ⟨hown, hseq⟩
  · replace hc := (hget c).symm.trans hc
    split_ifs at hc with hci
    · rw [← Option.some.inj hc] at hp
      cases hp
    · exact ⟨new, hc, hp⟩

lemma not_inFlight_fresh (token : WriterToken) (hstate : s'.session.state = .fresh token) :
    ¬ s'.InFlight blob := by
  rintro ⟨-, hseq⟩
  rw [hstate] at hseq
  exact absurd hseq (Finset.notMem_empty _)

lemma follows_refl (s : Sessions) : Follows s s :=
  follows_state rfl rfl fun _ h => h

lemma follows_advance (h : Minting s) (hi : s.callers[i]? = some caller) :
    Follows s (s.advance i caller) := by
  cases caller with
  | minting =>
    cases hmint : s.session.state.mint with
    | none =>
      simp only [advance, hmint]
      exact follows_setCaller hi (by simp) (by simp) (fun _ => rfl) rfl rfl fun _ hb => hb
    | some m =>
      simp only [advance, hmint]
      exact follows_mint h hi hmint
  | mintInstall fresh =>
    refine follows_setCaller hi (by simp) (by simp) (fun _ => rfl) rfl rfl fun blob hb => ?_
    by_cases hex : s.session.state.exhausted = true
    · exact absurd hb (not_inFlight_fresh fresh (if_pos hex))
    · obtain ⟨hown, hseq⟩ := hb
      have hstate : s.session.state.installIfSpent fresh = s.session.state := if_neg hex
      exact ⟨hown.trans (congrArg TokenState.token hstate),
        (congrArg TokenState.inFlight hstate) ▸ hseq⟩
  | rotating now =>
    exact follows_setCaller hi (by simp) (by simp) (fun hp => by cases hp) rfl rfl fun _ hb => hb
  | rotateInstall now fresh =>
    refine follows_setCaller hi (by simp) (by simp) (fun hp => by cases hp) rfl rfl
      fun blob hb => ?_
    exact absurd hb (not_inFlight_fresh fresh rfl)
  | rotateRecord now =>
    exact follows_setCaller hi (by simp) (by simp) (fun hp => by cases hp) rfl rfl fun _ hb => hb
  | mintRegister | rotateRegister now | minted result | rotated result => exact follows_refl s

lemma follows_registered (hi : s.callers[i]? = some caller)
    (answer : Except ClientError WriterToken) : Follows s (s.registered i answer caller) := by
  cases caller with
  | mintRegister =>
    cases answer <;>
      exact follows_setCaller hi (by simp) (by simp) (fun _ => rfl) rfl rfl fun _ hb => hb
  | rotateRegister now =>
    cases answer <;>
      exact follows_setCaller hi (by simp) (by simp) (fun hp => by cases hp) rfl rfl
        fun _ hb => hb
  | minting | mintInstall fresh | minted result | rotating now | rotateInstall now fresh
  | rotateRecord now | rotated result => exact follows_refl s

/-- Resolving an id takes it out of flight, and brings none in. -/
lemma InFlight.of_resolveBlob {b : BlobId} (h : (s.step (.resolveBlob blob)).InFlight b) :
    b ≠ blob ∧ s.InFlight b := by
  obtain ⟨hown, hseq⟩ := h
  by_cases htoken : BlobId.writerToken blob = s.session.state.token
  · have hstate : s.session.state.resolveBlob blob = { s.session.state with
        inFlight := s.session.state.inFlight.erase (BlobId.seq blob) } := if_pos htoken
    simp only [step, setState, hstate] at hown hseq
    obtain ⟨hne, hmem⟩ := Finset.mem_erase.mp hseq
    exact ⟨fun heq => hne (congrArg BlobId.seq heq), hown, hmem⟩
  · have hstate : s.session.state.resolveBlob blob = s.session.state := if_neg htoken
    simp only [step, setState, hstate] at hown hseq
    exact ⟨fun heq => htoken (heq ▸ hown), hown, hseq⟩

/-- Every event of a session leads to a state that follows. -/
theorem follows_step (h : Minting s) (event : Event) : Follows s (s.step event) := by
  cases event with
  | nextBlobId now =>
    refine follows_append _ fun blob hblob => ?_
    rw [Sessions.nextBlobId] at hblob
    split at hblob <;> cases hblob
  | forceRotate now => exact follows_append _ (by simp)
  | advance i =>
    cases hi : s.callers[i]? with
    | none => simpa [step, hi] using follows_refl s
    | some caller => simpa [step, hi] using follows_advance h hi
  | registered i answer =>
    cases hi : s.callers[i]? with
    | none => simpa [step, hi] using follows_refl s
    | some caller => simpa [step, hi] using follows_registered hi answer
  | resolveBlob blob =>
    exact follows_state rfl rfl fun _ hb => hb.of_resolveBlob.2
  | recordHeartbeatOk now => exact follows_state rfl rfl fun _ hb => hb

lemma length_callers_advance (i : ℕ) (caller : Caller) :
    (s.advance i caller).callers.length = s.callers.length := by
  cases caller with
  | minting =>
    rw [advance]
    cases s.session.state.mint <;> exact List.length_set
  | mintInstall fresh => exact List.length_set
  | rotating now => exact List.length_set
  | rotateInstall now fresh => exact List.length_set
  | rotateRecord now => exact List.length_set
  | mintRegister | rotateRegister now | minted result | rotated result => rfl

lemma length_callers_registered (i : ℕ) (answer : Except ClientError WriterToken) (caller : Caller) :
    (s.registered i answer caller).callers.length = s.callers.length := by
  cases caller with
  | mintRegister => cases answer <;> exact List.length_set
  | rotateRegister now => cases answer <;> exact List.length_set
  | _ => rfl

lemma returned_advance (i : ℕ) (caller : Caller) : (s.advance i caller).returned = s.returned := by
  cases caller with
  | minting =>
    rw [advance]
    cases s.session.state.mint <;> rfl
  | _ => rfl

/-- An id that is out of flight stays out. -/
lemma Follows.not_inFlight (h : Follows s s') (hminted : blob ∈ s.minted)
    (hout : ¬ s.InFlight blob) : ¬ s'.InFlight blob := by
  intro hin
  rcases h.flight blob hin with hold | ⟨hnew, -⟩
  · exact hout hold
  · exact hnew hminted

end Sessions

end Client

namespace Gateway

open Ec Client

/-! ## Uploads -/

/-- Errors of an upload; in the source one enumeration, with the texts of the causes. -/
inductive PutError
  | Failed (error : GatewayError)
  | AdmissionTooLarge (bytes poolBytes : ℕ)
  | Writer (cause : ClientError)
  | Meta (cause : ClientError ⊕ String)
deriving DecidableEq

/-- `put_object` with the bucket's inline threshold, or `put_part`. -/
inductive PutKind
  | object (inlineThreshold : ℕ)
  | part
deriving DecidableEq

/-- Where an upload waits.  `slices` are the parts of the body that are not written yet. -/
inductive PutPhase
  /-- The inline write is with the metadata service. -/
  | inlining
  | admitting
  /-- At the head of the loop over the blobs. -/
  | looping (blobs : List BlobDesc) (slices : List Bytes)
  /-- In `next_blob_id`, as a caller of the session. -/
  | minting (blobs : List BlobDesc) (slices : List Bytes) (caller : ℕ)
  /-- In `write_blob_with_rewrite`. -/
  | sending (blobs : List BlobDesc) (slices : List Bytes) (blobId : BlobId)
  /-- The metadata that references the blobs is with the metadata service. -/
  | committing (blobs : List BlobDesc)
  /-- In `resolve_layout`. -/
  | resolving (blobs : List BlobDesc)
  /-- A failed metadata call may leave its proposal outstanding. -/
  | returned (result : Except PutError Unit) (outstanding : Bool)

/-- What a call has returned, and whether a proposal of it is outstanding. -/
def PutPhase.result : PutPhase → Option (Except PutError Unit × Bool)
  | .returned result outstanding => some (result, outstanding)
  | _ => none

lemma PutPhase.eq_returned {phase : PutPhase} {r : Except PutError Unit × Bool}
    (h : phase.result = some r) : phase = .returned r.1 r.2 := by
  cases phase with
  | returned result outstanding =>
    rw [← Option.some.inj h]
  | _ => cases h

/-- A call with the ids it has minted, the last one first. -/
structure PutCall where
  kind : PutKind
  body : Bytes
  minted : List BlobId
  phase : PutPhase

/-- How a metadata call ends; only a part can be rejected. -/
inductive MetaAnswer
  | ok
  | rejected (reason : String)
  | failed (error : ClientError) (outstanding : Bool)
deriving DecidableEq

/-- The call failed and no proposal of it is left. -/
def MetaAnswer.failsNow : MetaAnswer → Bool
  | .ok => false
  | .rejected _ => true
  | .failed _ outstanding => !outstanding

/-- What lets a call go on. -/
inductive PutAction
  | answered (answer : MetaAnswer)
  | admitted
  | next (nowMillis : UInt64)
  | given
  | sent (attempts : List Attempt) (w : World)
  | resolved
  /-- The outstanding proposal has come to its end. -/
  | settled

def UNIT_BYTES : ℕ := 64 <<< 10

def acquire (totalUnits bytes : ℕ) : Except PutError Unit :=
  let units := max ((bytes + UNIT_BYTES - 1) / UNIT_BYTES) 1
  if units > totalUnits then .error (.AdmissionTooLarge bytes (totalUnits * UNIT_BYTES)) else .ok ()

def isInlineDowngrade : ClientError → Bool
  | .Rpc code _ => code = "ResourceExhausted"
  | _ => false

namespace PutCall

def start (kind : PutKind) (body : Bytes) : PutCall where
  kind
  body
  minted := []
  phase :=
    match kind with
    | .object threshold =>
      if 0 < threshold ∧ body.length ≤ threshold then .inlining else .admitting
    | .part => .admitting

variable (u : PutCall)

def answered (answer : MetaAnswer) : PutPhase :=
  match u.phase with
  | .inlining =>
    match answer with
    | .ok | .rejected _ => .returned (.ok ()) false
    | .failed e outstanding =>
      if isInlineDowngrade e then .admitting
      else .returned (.error (.Meta (.inl e))) outstanding
  | .committing blobs =>
    match answer, u.kind with
    | .ok, _ | .rejected _, .object _ => .resolving blobs
    | .rejected reason, .part => .returned (.error (.Meta (.inr reason))) false
    | .failed e outstanding, _ => .returned (.error (.Meta (.inl e))) outstanding
  | phase => phase

section Act

variable (rs : ReedSolomon) (blake3 : Bytes → Vector UInt8 32) (code : CodeMode) (totalUnits : ℕ)

def admitted : PutPhase :=
  match u.phase with
  | .admitting =>
    match acquire totalUnits u.body.length with
    | .error e => .returned (.error e) false
    | .ok _ =>
      match code.erasure with
      | .error e => .returned (.error (.Failed e)) false
      | .ok _ => .looping [] (chunks code.blobSize u.body)
  | phase => phase

def next (s : Sessions) (nowMillis : UInt64) : PutPhase × Sessions :=
  match u.phase with
  | .looping blobs [] => (.committing blobs, s)
  | .looping blobs (slice :: slices) =>
    (.minting blobs (slice :: slices) s.callers.length, s.step (.nextBlobId nowMillis))
  | phase => (phase, s)

def given (s : Sessions) : PutCall :=
  match u.phase with
  | .minting blobs slices caller =>
    match s.callers[caller]? with
    | some (.minted (.ok blobId)) =>
      { u with minted := blobId :: u.minted, phase := .sending blobs slices blobId }
    | some (.minted (.error e)) => { u with phase := .returned (.error (.Writer e)) false }
    | _ => u
  | _ => u

def sent (attempts : List Attempt) (w : World) : PutPhase :=
  match u.phase with
  | .sending blobs (slice :: slices) blobId =>
    match writeBlobWithRewrite rs blake3 code code.ec blobId slice code.writeQuorum attempts w with
    | .error e => .returned (.error (.Failed e)) false
    | .ok (placement, _) => .looping (blobs ++ [⟨blobId, slice.length, placement⟩]) slices
  | phase => phase

def resolved (s : Sessions) : PutPhase × Sessions :=
  match u.phase with
  | .resolving [] => (.returned (.ok ()) false, s)
  | .resolving (blob :: blobs) => (.resolving blobs, s.step (.resolveBlob blob.blobId))
  | phase => (phase, s)

def settled : PutPhase :=
  match u.phase with
  | .returned result _ => .returned result false
  | phase => phase

def act (s : Sessions) : PutAction → PutCall × Sessions
  | .answered answer => ({ u with phase := u.answered answer }, s)
  | .admitted => ({ u with phase := u.admitted code totalUnits }, s)
  | .next now => ({ u with phase := (u.next s now).1 }, (u.next s now).2)
  | .given => (u.given s, s)
  | .sent attempts w => ({ u with phase := u.sent rs blake3 code attempts w }, s)
  | .resolved => ({ u with phase := (u.resolved s).1 }, (u.resolved s).2)
  | .settled => ({ u with phase := u.settled }, s)

end Act

end PutCall

/-- What else happens to a session: rotations, steps of its callers, heartbeats. -/
inductive Background
  | forceRotate (nowMillis : UInt64)
  | advance (caller : ℕ)
  | registered (caller : ℕ) (answer : Except ClientError WriterToken)
  | recordHeartbeatOk (nowMillis : UInt64)

def Background.event : Background → Event
  | .forceRotate now => .forceRotate now
  | .advance i => .advance i
  | .registered i answer => .registered i answer
  | .recordHeartbeatOk now => .recordHeartbeatOk now

/-- The uploads of a gateway on its session. -/
structure ObjectService where
  sessions : Sessions
  calls : List PutCall

inductive ServiceEvent
  | call (kind : PutKind) (body : Bytes)
  | act (i : ℕ) (action : PutAction)
  | background (event : Background)

namespace ObjectService

def new (session : WriterSession) : ObjectService := ⟨.established session, []⟩

variable (rs : ReedSolomon) (blake3 : Bytes → Vector UInt8 32) (code : CodeMode) (totalUnits : ℕ)

def step (s : ObjectService) : ServiceEvent → ObjectService
  | .call kind body => { s with calls := s.calls ++ [.start kind body] }
  | .act i action =>
    match s.calls[i]? with
    | none => s
    | some u =>
      let r := u.act rs blake3 code totalUnits s.sessions action
      ⟨r.2, s.calls.set i r.1⟩
  | .background event => { s with sessions := s.sessions.step event.event }

/-- No id of a call that has returned, with no proposal outstanding, is in flight; when all calls are in this
state the watermark is the last minted sequence number. -/
structure Settled (s : ObjectService) : Prop where
  resolved : ∀ u ∈ s.calls, ∀ result, u.phase = .returned result false →
    ∀ blob ∈ u.minted, ¬ s.sessions.InFlight blob
  watermark : (∀ u ∈ s.calls, ∃ result, u.phase = .returned result false) →
    s.sessions.session.state.commitWatermark.2
      = (s.sessions.session.state.nextSeq.toNat : ℤ) - 1

end ObjectService

/-! ## Runs in which no upload fails half way -/

/-- The shard writes that are answered Ok. -/
def commits : List ShardEvent → List ℕ → ℕ
  | [], _ => 0
  | .late _ :: events, waiting => commits events waiting
  | .answer j reply :: events, waiting =>
    if j ∈ waiting then
      (if reply = .committed then 1 else 0) + commits events (waiting.erase j)
    else commits events waiting

/-- One of the first `n` attempts gets a quorum of Oks, and a chunk is picked up to then. -/
def reaches (code : CodeMode) : ℕ → List Attempt → Bool
  | 0, _ | _, [] => false
  | n + 1, attempt :: attempts =>
    match attempt.picked with
    | none => false
    | some writable =>
      if writable.slots.length ≠ code.total then reaches code n attempts
      else decide (code.writeQuorum ≤ commits attempt.events (List.range code.total))
        || reaches code n attempts

namespace PutCall

variable (u : PutCall) (s : Sessions)

/-- Every id the call has minted is of a token that was rotated away. -/
def Foreign : Prop := ∀ blob ∈ u.minted, BlobId.writerToken blob ≠ s.session.state.token

instance : Decidable (u.Foreign s) := inferInstanceAs (Decidable (∀ blob ∈ u.minted, _))

/-- The id that the call waits for is refused. -/
def refused : Bool :=
  match u.phase with
  | .minting _ _ caller =>
    match s.callers[caller]? with
    | some (.minted (.error _)) => true
    | _ => false
  | _ => false

/-- The call does not fail, unless it has no ids of the current token. -/
def Clean (code : CodeMode) : PutAction → Prop
  | .answered answer => answer.failsNow = false ∨ u.Foreign s
  | .given => u.refused s = false ∨ u.Foreign s
  | .sent attempts _ => reaches code MAX_BLOB_ATTEMPTS attempts = true ∨ u.Foreign s
  | .settled => u.Foreign s
  | .admitted | .next _ | .resolved => True

instance (code : CodeMode) : (action : PutAction) → Decidable (u.Clean s code action)
  | .answered answer => inferInstanceAs (Decidable (answer.failsNow = false ∨ u.Foreign s))
  | .given => inferInstanceAs (Decidable (u.refused s = false ∨ u.Foreign s))
  | .sent attempts _ =>
    inferInstanceAs (Decidable (reaches code MAX_BLOB_ATTEMPTS attempts = true ∨ u.Foreign s))
  | .settled => inferInstanceAs (Decidable (u.Foreign s))
  | .admitted | .next _ | .resolved => inferInstanceAs (Decidable True)

end PutCall

namespace ObjectService

/-- Calls do not fail with ids of the current token, and the token source returns no token twice. -/
def Clean (code : CodeMode) (s : ObjectService) : ServiceEvent → Prop
  | .act i action => ∀ u ∈ s.calls[i]?, u.Clean s.sessions code action
  | .background (.registered _ (.ok fresh)) => fresh ∉ s.sessions.returned
  | _ => True

instance (code : CodeMode) (s : ObjectService) : (event : ServiceEvent) → Decidable (s.Clean code event)
  | .act i action => inferInstanceAs (Decidable (∀ u ∈ s.calls[i]?, u.Clean s.sessions code action))
  | .background (.registered _ (.ok fresh)) =>
    inferInstanceAs (Decidable (fresh ∉ s.sessions.returned))
  | .background (.registered _ (.error _)) | .background (.forceRotate _)
  | .background (.advance _) | .background (.recordHeartbeatOk _) | .call _ _ =>
    inferInstanceAs (Decidable True)

end ObjectService

section Quorum

variable {rs : ReedSolomon} (blake3 : Bytes → Vector UInt8 32) {code : CodeMode} (blobId : BlobId)
  (slice : Bytes)

lemma commits_nil (events : List ShardEvent) : commits events [] = 0 := by
  induction events with
  | nil => rfl
  | cons event events ih =>
    cases event with
    | late k => exact ih
    | answer j reply => rw [commits, if_neg List.not_mem_nil, ih]

/-- The loop counts the Oks, up to the quorum. -/
lemma quorum_le_joinLoop {quorum : ℕ} {writes : List (Slot × Bytes)} (events : List ShardEvent)
    {waiting : List ℕ} (hwaiting : ∀ j ∈ waiting, j < writes.length) {committed : ℕ}
    (h : quorum ≤ committed + commits events waiting) (errors : List EpochError) (w : World) :
    quorum ≤ (joinLoop quorum writes events waiting committed errors w).1.1 := by
  induction events generalizing waiting committed errors w with
  | nil => simpa [joinLoop, commits] using h
  | cons event events ih =>
    by_cases hnil : waiting = []
    · rw [hnil, commits_nil] at h
      rw [joinLoop.eq_def]
      simp only [if_pos hnil]
      exact h
    cases event with
    | late k =>
      rw [joinLoop, if_neg hnil]
      exact ih hwaiting h errors _
    | answer j reply =>
      rw [joinLoop, if_neg hnil]
      rw [commits] at h
      by_cases hj : j ∈ waiting
      · have hcount : (joined writes j reply committed errors w).1.1
            = committed + if reply = .committed then 1 else 0 := by
          have hwrite := List.getElem?_eq_getElem (hwaiting j hj)
          cases reply <;> simp [joined, hwrite]
        simp only [if_pos hj] at h ⊢
        split_ifs with hdone
        · exact hdone
        · refine ih (fun k hk => hwaiting k (List.mem_of_mem_erase hk)) ?_ _ _
          rw [hcount]
          omega
      · rw [if_neg hj] at h
        simp only [if_neg hj]
        exact ih hwaiting h errors w

lemma writeBlob_commits (hrs : rs.Reconstructs code.data code.parity) {chunk : ChunkPlacement}
    (htotal : chunk.shards.length = code.total) (events : List ShardEvent) (w : World) :
    ∃ r, writeBlob rs blake3 code chunk code.ec blobId slice events w = .ok r
      ∧ (code.writeQuorum ≤ commits events (List.range code.total) → code.writeQuorum ≤ r.1.1) := by
  obtain ⟨hok, hlen, -⟩ := bodiesFor_spec blake3 hrs slice
  rw [writeBlob, hok]
  refine ⟨_, rfl, fun h => ?_⟩
  have hwrites : (List.zipWith (fun shard body => (slotOf shard blobId, (sendFrames (stripeFrameLens
      slice.length code.stripeSize code.data) body).flatten)) chunk.shards
        (bodiesFor rs blake3 code slice)).length = code.total := by
    rw [List.length_zipWith, htotal, hlen, Nat.min_self]
  refine quorum_le_joinLoop events (fun j hj => List.mem_range.mp hj) ?_ _ _
  rw [hwrites, Nat.zero_add]
  exact h

/-- An attempt with a quorum of Oks ends the loop. -/
lemma rewriteLoop_reaches (hrs : rs.Reconstructs code.data code.parity) {n : ℕ}
    {attempts : List Attempt} (h : reaches code n attempts = true) (last : ℕ) (outOfSpace : Bool)
    (w : World) : ∃ r, rewriteLoop rs blake3 code code.ec blobId slice code.writeQuorum n attempts last
      outOfSpace w = .ok r := by
  induction n generalizing attempts last outOfSpace w with
  | zero => simp [reaches] at h
  | succ n ih =>
    cases attempts with
    | nil => simp [reaches] at h
    | cons attempt attempts =>
      rw [rewriteLoop]
      rw [reaches] at h
      cases hpicked : attempt.picked with
      | none => simp [hpicked] at h
      | some writable =>
        have hshards : (placementOf writable).shards.length = writable.slots.length := by
          rw [placementOf, List.length_map]
        simp only [hpicked] at h ⊢
        by_cases htotal : writable.slots.length = code.total
        · rw [if_neg (not_not.mpr htotal), Bool.or_eq_true, decide_eq_true_eq] at h
          rw [hshards, if_neg (not_not.mpr htotal)]
          obtain ⟨r, hr, hcount⟩ := writeBlob_commits blake3 blobId slice hrs
            (hshards.trans htotal) attempt.events w
          simp only [hr, bind, Except.bind]
          split_ifs with hquorum
          · exact ⟨_, rfl⟩
          · exact ih (h.resolve_left fun hc => hquorum (hcount hc)) _ _ _
        · rw [if_pos htotal] at h
          rw [hshards, if_pos htotal]
          exact ih h _ _ _

end Quorum

/-! ## Where the ids of a call are -/

namespace PutCall

variable {u : PutCall} {s s' : Sessions}

/-- The ids of a call are in the layout it works on; those that are not any more are out of flight. -/
def Accounted (u : PutCall) (s : Sessions) : Prop :=
  match u.phase with
  | .inlining | .admitting => u.minted = []
  | .looping blobs _ | .minting blobs _ _ | .committing blobs =>
    ∀ blob ∈ u.minted, blob ∈ blobs.map BlobDesc.blobId
  | .sending blobs _ blobId => ∀ blob ∈ u.minted, blob = blobId ∨ blob ∈ blobs.map BlobDesc.blobId
  | .resolving blobs => ∀ blob ∈ u.minted, blob ∈ blobs.map BlobDesc.blobId ∨ ¬ s.InFlight blob
  | .returned _ outstanding => outstanding = false → ∀ blob ∈ u.minted, ¬ s.InFlight blob

/-- The id was given to the call, if only as the result it has not taken yet. -/
def Owns (u : PutCall) (s : Sessions) (blob : BlobId) : Prop :=
  blob ∈ u.minted ∨ ∃ blobs slices, ∃ caller : ℕ, u.phase = .minting blobs slices caller
    ∧ s.callers[caller]? = some (.minted (.ok blob))

lemma accounted_start (kind : PutKind) (body : Bytes) : (start kind body).Accounted s := by
  cases kind with
  | object threshold =>
    by_cases hinline : 0 < threshold ∧ body.length ≤ threshold
    · simp [Accounted, start, hinline]
    · simp only [Accounted, start, if_neg hinline]
  | part => exact rfl

lemma Accounted.follows (h : u.Accounted s) (hs : s.Follows s')
    (hids : ∀ blob ∈ u.minted, blob ∈ s.minted) : u.Accounted s' := by
  have hout : ∀ blob ∈ u.minted, ¬ s.InFlight blob → ¬ s'.InFlight blob :=
    fun blob hblob hn => hs.not_inFlight (hids blob hblob) hn
  unfold Accounted at h ⊢
  cases hphase : u.phase with
  | resolving blobs =>
    rw [hphase] at h
    exact fun blob hblob => (h blob hblob).imp_right (hout blob hblob)
  | returned result outstanding =>
    rw [hphase] at h
    exact fun hdone blob hblob => hout blob hblob (h hdone blob hblob)
  | _ =>
    rw [hphase] at h
    exact h

lemma Owns.follows {blob : BlobId} (h : u.Owns s blob) (hs : s.Follows s') : u.Owns s' blob :=
  h.imp_right fun ⟨blobs, slices, caller, hphase, hcaller⟩ =>
    ⟨blobs, slices, caller, hphase, hs.results caller _ hcaller⟩

lemma Foreign.not_inFlight (h : u.Foreign s) : ∀ blob ∈ u.minted, ¬ s.InFlight blob :=
  fun blob hblob hin => h blob hblob hin.1

/-- The call waits for the result of a caller of the session. -/
def Awaits (u : PutCall) (caller : ℕ) : Prop :=
  ∃ blobs slices, u.phase = .minting blobs slices caller

lemma Awaits.owns {c : ℕ} {blob : BlobId} (h : u.Awaits c)
    (hresult : s.callers[c]? = some (.minted (.ok blob))) : u.Owns s blob :=
  Or.inr (h.imp fun _ ⟨slices, hphase⟩ => ⟨slices, c, hphase, hresult⟩)

section Act

variable (rs : ReedSolomon) (blake3 : Bytes → Vector UInt8 32) (code : CodeMode) (totalUnits : ℕ)

lemma Accounted.answered (h : u.Accounted s) {answer : MetaAnswer}
    (hclean : answer.failsNow = false ∨ u.Foreign s) :
    Accounted { u with phase := u.answered answer } s := by
  unfold Accounted at h
  unfold PutCall.answered
  cases hphase : u.phase with
  | inlining =>
    rw [hphase] at h
    have hnone : ∀ blob ∈ u.minted, ¬ s.InFlight blob := fun blob hblob => by
      rw [h] at hblob
      cases hblob
    cases answer with
    | ok => exact fun _ => hnone
    | rejected reason => exact fun _ => hnone
    | failed e outstanding =>
      dsimp only
      split_ifs
      · exact h
      · exact fun _ => hnone
  | committing blobs =>
    rw [hphase] at h
    cases answer with
    | ok => exact fun blob hblob => Or.inl (h blob hblob)
    | rejected reason =>
      cases u.kind with
      | object threshold => exact fun blob hblob => Or.inl (h blob hblob)
      | part => exact fun _ => (hclean.resolve_left (by simp [MetaAnswer.failsNow])).not_inFlight
    | failed e outstanding =>
      intro hdone
      refine (hclean.resolve_left ?_).not_inFlight
      rw [MetaAnswer.failsNow, show outstanding = false from hdone]
      simp
  | _ =>
    rw [hphase] at h
    exact h

lemma Accounted.admitted (h : u.Accounted s) :
    Accounted { u with phase := u.admitted code totalUnits } s := by
  unfold Accounted at h
  unfold PutCall.admitted
  cases hphase : u.phase with
  | admitting =>
    rw [hphase] at h
    have hnone : ∀ blob, blob ∉ u.minted := fun blob hblob => by
      rw [h] at hblob
      cases hblob
    cases hacquire : acquire totalUnits u.body.length with
    | error e => exact fun _ blob hblob => absurd hblob (hnone blob)
    | ok _ =>
      rw [code.erasure_eq]
      exact fun blob hblob => absurd hblob (hnone blob)
  | _ =>
    rw [hphase] at h
    exact h

lemma Accounted.next (h : u.Accounted s) (now : UInt64) :
    Accounted { u with phase := (u.next s now).1 } (u.next s now).2 := by
  unfold Accounted at h
  unfold PutCall.next
  cases hphase : u.phase with
  | looping blobs slices =>
    rw [hphase] at h
    cases slices with
    | nil => exact h
    | cons slice slices => exact h
  | _ =>
    rw [hphase] at h
    exact h

/-- A call takes the id it waits for, or the refusal; before that it stays as it is. -/
lemma given_cases (u : PutCall) (s : Sessions) :
    u.given s = u ∨ ∃ blobs slices, ∃ caller : ℕ, u.phase = .minting blobs slices caller
      ∧ ((∃ blobId, s.callers[caller]? = some (.minted (.ok blobId)) ∧ u.given s
          = { u with minted := blobId :: u.minted, phase := .sending blobs slices blobId })
        ∨ ∃ e, s.callers[caller]? = some (.minted (.error e))
          ∧ u.given s = { u with phase := .returned (.error (.Writer e)) false }) := by
  unfold PutCall.given
  cases hphase : u.phase with
  | minting blobs slices caller =>
    dsimp only
    cases hcaller : s.callers[caller]? with
    | none => exact Or.inl rfl
    | some c =>
      cases c with
      | minted r =>
        refine Or.inr ⟨blobs, slices, caller, rfl, ?_⟩
        cases r with
        | ok blobId => exact Or.inl ⟨blobId, hcaller, rfl⟩
        | error e => exact Or.inr ⟨e, hcaller, rfl⟩
      | _ => exact Or.inl rfl
  | _ => exact Or.inl rfl

lemma Accounted.given (h : u.Accounted s) (hclean : u.refused s = false ∨ u.Foreign s) :
    (u.given s).Accounted s := by
  rcases u.given_cases s with heq | ⟨blobs, slices, caller, hphase,
    ⟨blobId, hcaller, heq⟩ | ⟨e, hcaller, heq⟩⟩
  · rwa [heq]
  · rw [heq]
    rw [Accounted, hphase] at h
    exact fun blob hblob => (List.mem_cons.mp hblob).imp_right (h blob)
  · rw [heq]
    exact fun _ => (hclean.resolve_left (by simp [refused, hphase, hcaller])).not_inFlight

lemma Accounted.sent (hrs : rs.Reconstructs code.data code.parity) (h : u.Accounted s)
    {attempts : List Attempt} (w : World)
    (hclean : reaches code MAX_BLOB_ATTEMPTS attempts = true ∨ u.Foreign s) :
    Accounted { u with phase := u.sent rs blake3 code attempts w } s := by
  unfold Accounted at h
  unfold PutCall.sent
  cases hphase : u.phase with
  | sending blobs slices blobId =>
    rw [hphase] at h
    cases slices with
    | nil => exact h
    | cons slice slices =>
      dsimp only
      cases hwrite : writeBlobWithRewrite rs blake3 code code.ec blobId slice code.writeQuorum
          attempts w with
      | error e =>
        refine fun _ => (hclean.resolve_left fun hreach => ?_).not_inFlight
        obtain ⟨r, hr⟩ := rewriteLoop_reaches blake3 blobId slice hrs hreach 0 false w
        rw [writeBlobWithRewrite, hr] at hwrite
        cases hwrite
      | ok r =>
        intro blob hblob
        rw [List.map_append, List.map_singleton, List.mem_append, List.mem_singleton]
        exact (h blob hblob).symm
  | _ =>
    rw [hphase] at h
    exact h

lemma Accounted.resolved (h : u.Accounted s) (hs : s.Minting)
    (hids : ∀ blob ∈ u.minted, blob ∈ s.minted) :
    Accounted { u with phase := (u.resolved s).1 } (u.resolved s).2 := by
  unfold Accounted at h
  unfold PutCall.resolved
  cases hphase : u.phase with
  | resolving blobs =>
    rw [hphase] at h
    cases blobs with
    | nil => exact fun _ blob hblob => (h blob hblob).resolve_left List.not_mem_nil
    | cons blob blobs =>
      intro b hb
      by_cases hin : (s.step (.resolveBlob blob.blobId)).InFlight b
      · refine Or.inl ?_
        rcases h b hb with hmem | hout
        · rcases List.mem_cons.mp hmem with rfl | hmem
          · exact absurd rfl hin.of_resolveBlob.1
          · exact hmem
        · exact absurd hin ((Sessions.follows_step hs _).not_inFlight (hids b hb) hout)
      · exact Or.inr hin
  | _ =>
    rw [hphase] at h
    exact h

lemma Accounted.settled (h : u.Accounted s) (hclean : u.Foreign s) :
    Accounted { u with phase := u.settled } s := by
  unfold Accounted at h
  unfold PutCall.settled
  cases hphase : u.phase with
  | returned result outstanding => exact fun _ => hclean.not_inFlight
  | _ =>
    rw [hphase] at h
    exact h

variable {action : PutAction}

variable {rs code} in
lemma Accounted.act (hrs : rs.Reconstructs code.data code.parity) (h : u.Accounted s)
    (hs : s.Minting) (hids : ∀ blob ∈ u.minted, blob ∈ s.minted) (hclean : u.Clean s code action) :
    (u.act rs blake3 code totalUnits s action).1.Accounted
      (u.act rs blake3 code totalUnits s action).2 := by
  cases action with
  | answered answer => exact h.answered hclean
  | admitted => exact h.admitted code totalUnits
  | next now => exact h.next now
  | given => exact h.given hclean
  | sent attempts w => exact h.sent rs blake3 code hrs w hclean
  | resolved => exact h.resolved hs hids
  | settled => exact h.settled hclean

/-- A call that waits for a result is moved by nothing else. -/
lemma act_of_minting {blobs : List BlobDesc} {slices : List Bytes} {caller : ℕ}
    (hphase : u.phase = .minting blobs slices caller) (hgiven : action ≠ .given) :
    u.act rs blake3 code totalUnits s action = (u, s) := by
  obtain ⟨kind, body, minted, phase⟩ := u
  obtain rfl : phase = _ := hphase
  cases action with
  | given => exact absurd rfl hgiven
  | _ => rfl

lemma minted_act (hgiven : action ≠ .given) :
    (u.act rs blake3 code totalUnits s action).1.minted = u.minted := by
  cases action with
  | given => exact absurd rfl hgiven
  | _ => rfl

/-- What a call was given stays with it. -/
lemma Owns.act {blob : BlobId} (action : PutAction) {s' : Sessions} (hs : s.Follows s')
    (h : u.Owns s blob) : (u.act rs blake3 code totalUnits s action).1.Owns s' blob := by
  by_cases hgiven : action = .given
  · subst hgiven
    show (u.given s).Owns s' blob
    rcases h with hmem | ⟨blobs, slices, caller, hphase, hcaller⟩
    · rcases u.given_cases s with heq | ⟨_, _, _, -, ⟨blobId, -, heq⟩ | ⟨e, -, heq⟩⟩ <;> rw [heq]
      · exact Or.inl hmem
      · exact Or.inl (List.mem_cons_of_mem _ hmem)
      · exact Or.inl hmem
    · simp only [PutCall.given, hphase, hcaller]
      exact Or.inl List.mem_cons_self
  · rcases h with hmem | ⟨blobs, slices, caller, hphase, hcaller⟩
    · left
      rw [minted_act rs blake3 code totalUnits hgiven]
      exact hmem
    · rw [act_of_minting rs blake3 code totalUnits hphase hgiven]
      exact Or.inr ⟨blobs, slices, caller, hphase, hs.results caller _ hcaller⟩

/-- A call goes on waiting while the caller is pending. -/
lemma Awaits.act {c : ℕ} {caller : Caller} (action : PutAction) (hcaller : s.callers[c]? = some caller)
    (hpending : caller.pending = true) (h : u.Awaits c) :
    (u.act rs blake3 code totalUnits s action).1.Awaits c := by
  obtain ⟨blobs, slices, hphase⟩ := h
  by_cases hgiven : action = .given
  · subst hgiven
    show (u.given s).Awaits c
    unfold PutCall.given
    simp only [hphase, hcaller]
    cases caller with
    | minted r => cases hpending
    | _ => exact ⟨blobs, slices, hphase⟩
  · rw [act_of_minting rs blake3 code totalUnits hphase hgiven]
    exact ⟨blobs, slices, hphase⟩

/-- The ids of a call are minted by the session. -/
lemma mem_minted_act (hids : ∀ blob ∈ u.minted, blob ∈ s.minted)
    (hresults : ∀ (c : ℕ) blob, s.callers[c]? = some (.minted (.ok blob)) → blob ∈ s.minted)
    (action : PutAction) :
    ∀ blob ∈ (u.act rs blake3 code totalUnits s action).1.minted, blob ∈ s.minted := by
  by_cases hgiven : action = .given
  · subst hgiven
    show ∀ blob ∈ (u.given s).minted, blob ∈ s.minted
    rcases u.given_cases s with heq | ⟨_, _, caller, -, ⟨blobId, hcaller, heq⟩ | ⟨e, -, heq⟩⟩ <;> rw [heq]
    · exact hids
    · exact List.forall_mem_cons.mpr ⟨hresults caller _ hcaller, hids⟩
    · exact hids
  · rw [minted_act rs blake3 code totalUnits hgiven]
    exact hids

/-- A call acts on the session by `next_blob_id` and `resolve_blob` only. -/
lemma act_sessions (action : PutAction) :
    (u.act rs blake3 code totalUnits s action).2 = s
      ∨ (∃ blob, (u.act rs blake3 code totalUnits s action).2 = s.step (.resolveBlob blob))
      ∨ ∃ now, (u.act rs blake3 code totalUnits s action).2 = s.step (.nextBlobId now)
        ∧ (u.act rs blake3 code totalUnits s action).1.Awaits s.callers.length := by
  obtain ⟨kind, body, minted, phase⟩ := u
  cases action with
  | next now =>
    cases phase with
    | looping blobs slices =>
      cases slices with
      | nil => exact Or.inl rfl
      | cons slice slices => exact Or.inr (Or.inr ⟨now, rfl, blobs, slice :: slices, rfl⟩)
    | _ => exact Or.inl rfl
  | resolved =>
    cases phase with
    | resolving blobs =>
      cases blobs with
      | nil => exact Or.inl rfl
      | cons blob blobs => exact Or.inr (Or.inl ⟨blob.blobId, rfl⟩)
    | _ => exact Or.inl rfl
  | _ => exact Or.inl rfl

end Act

end PutCall

/-! ## The books of a service -/

namespace ObjectService

open PutCall

variable {s : ObjectService}

/-- Ids are minted once and are where their call has them, and whatever is in flight, or may come to be, belongs
to a call. -/
structure Books (s : ObjectService) : Prop where
  minting : s.sessions.Minting
  nodup : s.sessions.returned.Nodup
  ids : ∀ u ∈ s.calls, ∀ blob ∈ u.minted, blob ∈ s.sessions.minted
  results : ∀ (c : ℕ) blob, s.sessions.callers[c]? = some (.minted (.ok blob)) →
    blob ∈ s.sessions.minted
  accounted : ∀ u ∈ s.calls, u.Accounted s.sessions
  owned : ∀ blob, s.sessions.InFlight blob → ∃ u ∈ s.calls, u.Owns s.sessions blob
  awaited : ∀ (c : ℕ) (caller : Caller), s.sessions.callers[c]? = some caller →
    caller.pending = true → ∃ u ∈ s.calls, u.Awaits c

lemma books_new {session : WriterSession} (h : session.state.inFlight = ∅) : Books (new session) where
  minting := Sessions.minting_established session
  nodup := List.nodup_singleton _
  ids := fun _ h => by cases h
  results := fun _ _ h => by cases h
  accounted := fun _ h => by cases h
  owned := fun blob ⟨_, hseq⟩ => by
    have hseq : BlobId.seq blob ∈ session.state.inFlight := hseq
    rw [h] at hseq
    exact absurd hseq (Finset.notMem_empty _)
  awaited := fun _ _ h => by cases h

/-- The session and the calls move on, each call keeping what it was given. -/
lemma Books.move (h : Books s) {sessions : Sessions} {calls : List PutCall}
    (hfollows : s.sessions.Follows sessions) (hminting : sessions.Minting)
    (hnodup : sessions.returned.Nodup)
    (hnew : ∀ u ∈ calls, (∀ blob ∈ u.minted, blob ∈ sessions.minted) ∧ u.Accounted sessions)
    (hold : ∀ u ∈ s.calls, ∃ u' ∈ calls, (∀ blob, u.Owns s.sessions blob → u'.Owns sessions blob)
      ∧ (∀ c blob, u.Awaits c → sessions.callers[c]? = some (.minted (.ok blob)) →
        u'.Owns sessions blob)
      ∧ ∀ (c : ℕ) (caller : Caller), s.sessions.callers[c]? = some caller → caller.pending = true →
        u.Awaits c → u'.Awaits c)
    (hlast : ∀ caller : Caller, sessions.callers[s.sessions.callers.length]? = some caller →
      caller.pending = true → ∃ u ∈ calls, u.Awaits s.sessions.callers.length) :
    Books ⟨sessions, calls⟩ := by
  refine ⟨hminting, hnodup, fun u hu => (hnew u hu).1, fun c blob hc => ?_,
    fun u hu => (hnew u hu).2, fun blob hblob => ?_, fun c caller hc hpending => ?_⟩
  · rcases hfollows.given c blob hc with hsame | hmem
    · exact hfollows.minted blob (h.results c blob hsame)
    · exact hmem
  · rcases hfollows.flight blob hblob with hin | ⟨-, c, caller, hc, hpending, hresult⟩
    · obtain ⟨u, hu, howns⟩ := h.owned blob hin
      obtain ⟨u', hu', hkeep, -⟩ := hold u hu
      exact ⟨u', hu', hkeep blob howns⟩
    · obtain ⟨u, hu, hawaits⟩ := h.awaited c caller hc hpending
      obtain ⟨u', hu', -, htake, -⟩ := hold u hu
      exact ⟨u', hu', htake c blob hawaits hresult⟩
  · rcases hfollows.pending c caller hc hpending with rfl | ⟨caller', hc', hpending'⟩
    · exact hlast caller hc hpending
    · obtain ⟨u, hu, hawaits⟩ := h.awaited c caller' hc' hpending'
      obtain ⟨u', hu', -, -, hwait⟩ := hold u hu
      exact ⟨u', hu', hwait c caller' hc' hpending' hawaits⟩

lemma Books.call (h : Books s) (kind : PutKind) (body : Bytes) :
    Books ⟨s.sessions, s.calls ++ [.start kind body]⟩ := by
  refine h.move (Sessions.follows_refl _) h.minting h.nodup (fun u hu => ?_) (fun u hu => ?_)
    fun caller hcaller hpending => ?_
  · rcases List.mem_append.mp hu with hu | hu
    · exact ⟨h.ids u hu, h.accounted u hu⟩
    · rw [List.mem_singleton.mp hu]
      exact ⟨fun blob hblob => absurd hblob List.not_mem_nil, accounted_start kind body⟩
  · exact ⟨u, List.mem_append_left _ hu, fun _ howns => howns,
      fun c blob hawaits hresult => hawaits.owns hresult, fun _ _ _ _ hawaits => hawaits⟩
  · rw [List.getElem?_eq_none le_rfl] at hcaller
    cases hcaller

variable {code : CodeMode} {event : Background}

/-- What happens to a session in the background adds no caller that waits for an id. -/
lemma not_pending_background {sessions : Sessions} {caller : Caller}
    (hcaller : (sessions.step event.event).callers[sessions.callers.length]? = some caller) :
    caller.pending = false := by
  have hnone : ∀ {callers : List Caller}, callers.length = sessions.callers.length →
      callers[sessions.callers.length]? ≠ some caller := by
    intro callers hlen hsome
    rw [List.getElem?_eq_none hlen.le] at hsome
    cases hsome
  cases event with
  | forceRotate now =>
    have hlast : (sessions.callers ++ [Caller.rotating now])[sessions.callers.length]?
        = some caller := hcaller
    rw [List.getElem?_append_right le_rfl, Nat.sub_self] at hlast
    rw [← Option.some.inj hlast]
    rfl
  | advance i =>
    refine absurd hcaller (hnone ?_)
    simp only [Background.event, Sessions.step]
    cases sessions.callers[i]? with
    | none => rfl
    | some c => exact Sessions.length_callers_advance i c
  | registered i answer =>
    refine absurd hcaller (hnone ?_)
    simp only [Background.event, Sessions.step]
    cases sessions.callers[i]? with
    | none => rfl
    | some c => exact Sessions.length_callers_registered i answer c
  | recordHeartbeatOk now => exact absurd hcaller (hnone rfl)

lemma returned_of_clean (hnodup : s.sessions.returned.Nodup)
    (hclean : s.Clean code (.background event)) :
    (s.sessions.step event.event).returned.Nodup := by
  cases event with
  | forceRotate now => exact hnodup
  | recordHeartbeatOk now => exact hnodup
  | advance i =>
    simp only [Background.event, Sessions.step]
    cases s.sessions.callers[i]? with
    | none => exact hnodup
    | some c =>
      rw [Option.map_some, Option.getD_some, Sessions.returned_advance]
      exact hnodup
  | registered i answer =>
    simp only [Background.event, Sessions.step]
    cases s.sessions.callers[i]? with
    | none => exact hnodup
    | some c =>
      rw [Option.map_some, Option.getD_some]
      cases answer with
      | error e =>
        cases c with
        | _ => exact hnodup
      | ok fresh =>
        cases c with
        | mintRegister => exact List.nodup_cons.mpr ⟨hclean, hnodup⟩
        | rotateRegister now => exact List.nodup_cons.mpr ⟨hclean, hnodup⟩
        | _ => exact hnodup

lemma Books.background (h : Books s) (hclean : s.Clean code (.background event)) :
    Books ⟨s.sessions.step event.event, s.calls⟩ := by
  have hnodup := returned_of_clean h.nodup hclean
  have hfollows := Sessions.follows_step h.minting event.event
  refine h.move hfollows (h.minting.step _ hnodup) hnodup (fun u hu => ⟨fun blob hblob =>
    hfollows.minted blob (h.ids u hu blob hblob), (h.accounted u hu).follows hfollows (h.ids u hu)⟩)
    (fun u hu => ⟨u, hu, fun blob howns => howns.follows hfollows,
      fun c blob hawaits hresult => hawaits.owns hresult, fun _ _ _ _ hawaits => hawaits⟩)
    fun caller hcaller hpending => ?_
  rw [not_pending_background hcaller] at hpending
  cases hpending

lemma Books.act {rs : ReedSolomon} (hrs : rs.Reconstructs code.data code.parity)
    (blake3 : Bytes → Vector UInt8 32) (totalUnits : ℕ) (h : Books s) {i : ℕ} {u : PutCall}
    (hu : s.calls[i]? = some u) {action : PutAction} (hclean : u.Clean s.sessions code action) :
    Books ⟨(u.act rs blake3 code totalUnits s.sessions action).2,
      s.calls.set i (u.act rs blake3 code totalUnits s.sessions action).1⟩ := by
  have hmem : u ∈ s.calls := List.mem_of_getElem? hu
  have hset : (u.act rs blake3 code totalUnits s.sessions action).1
      ∈ s.calls.set i (u.act rs blake3 code totalUnits s.sessions action).1 :=
    List.mem_set (List.getElem?_eq_some_iff.mp hu).1 _
  have hsessions := u.act_sessions rs blake3 code totalUnits (s := s.sessions) action
  obtain ⟨hnodup, hfollows, hminting⟩ :
      (u.act rs blake3 code totalUnits s.sessions action).2.returned.Nodup
        ∧ s.sessions.Follows (u.act rs blake3 code totalUnits s.sessions action).2
        ∧ (u.act rs blake3 code totalUnits s.sessions action).2.Minting := by
    rcases hsessions with hsame | ⟨blob, hstep⟩ | ⟨now, hstep, -⟩
    · rw [hsame]
      exact ⟨h.nodup, Sessions.follows_refl _, h.minting⟩
    · rw [hstep]
      exact ⟨h.nodup, Sessions.follows_step h.minting _, h.minting.step _ h.nodup⟩
    · rw [hstep]
      exact ⟨h.nodup, Sessions.follows_step h.minting _, h.minting.step _ h.nodup⟩
  refine h.move hfollows hminting hnodup (fun v hv => ?_) (fun v hv => ?_)
    fun caller hcaller hpending => ?_
  · rcases List.mem_or_eq_of_mem_set hv with hv | rfl
    · exact ⟨fun blob hblob => hfollows.minted blob (h.ids v hv blob hblob),
        (h.accounted v hv).follows hfollows (h.ids v hv)⟩
    · exact ⟨fun blob hblob => hfollows.minted blob
          (mem_minted_act rs blake3 code totalUnits (h.ids u hmem) h.results action blob hblob),
        (h.accounted u hmem).act blake3 totalUnits hrs h.minting (h.ids u hmem) hclean⟩
  · obtain ⟨j, hj⟩ := List.mem_iff_getElem?.mp hv
    by_cases hij : i = j
    · obtain rfl : u = v := Option.some.inj (hu.symm.trans (hij ▸ hj))
      refine ⟨_, hset, fun blob howns => howns.act rs blake3 code totalUnits action hfollows,
        fun c blob hawaits hresult => ?_, fun c caller hc hpending hawaits =>
          hawaits.act rs blake3 code totalUnits action hc hpending⟩
      obtain ⟨blobs, slices, hphase⟩ := hawaits
      have hsame : (u.act rs blake3 code totalUnits s.sessions action).2 = s.sessions := by
        by_cases hgiven : action = .given
        · rw [hgiven]
          rfl
        · rw [act_of_minting rs blake3 code totalUnits hphase hgiven]
      rw [hsame] at hresult
      exact Owns.act rs blake3 code totalUnits action hfollows
        (Or.inr ⟨blobs, slices, c, hphase, hresult⟩)
    · refine ⟨v, List.mem_of_getElem? (i := j) ?_, fun blob howns => howns.follows hfollows,
        fun c blob hawaits hresult => hawaits.owns hresult, fun _ _ _ _ hawaits => hawaits⟩
      rw [List.getElem?_set_ne hij, hj]
  · rcases hsessions with hsame | ⟨blob, hstep⟩ | ⟨now, -, hawaits⟩
    · rw [hsame, List.getElem?_eq_none le_rfl] at hcaller
      cases hcaller
    · rw [hstep] at hcaller
      have hnone : s.sessions.callers[s.sessions.callers.length]? = some caller := hcaller
      rw [List.getElem?_eq_none le_rfl] at hnone
      cases hnone
    · exact ⟨_, hset, hawaits⟩

lemma Books.step {rs : ReedSolomon} (hrs : rs.Reconstructs code.data code.parity)
    (blake3 : Bytes → Vector UInt8 32) (totalUnits : ℕ) (h : Books s) {event : ServiceEvent}
    (hclean : s.Clean code event) : Books (step rs blake3 code totalUnits s event) := by
  cases event with
  | call kind body => exact h.call kind body
  | act i action =>
    cases hu : s.calls[i]? with
    | none =>
      simp only [ObjectService.step, hu]
      exact h
    | some u =>
      simp only [ObjectService.step, hu]
      exact h.act hrs blake3 totalUnits hu (hclean u hu)
  | background event => exact h.background hclean

lemma Books.settled (h : Books s) : Settled s := by
  have hresolved : ∀ u ∈ s.calls, ∀ result, u.phase = .returned result false →
      ∀ blob ∈ u.minted, ¬ s.sessions.InFlight blob := by
    intro u hu result hphase
    have haccounted := h.accounted u hu
    rw [Accounted, hphase] at haccounted
    exact haccounted rfl
  refine ⟨hresolved, fun hall => ?_⟩
  have hempty : s.sessions.session.state.inFlight = ∅ := by
    refine Finset.eq_empty_of_forall_notMem fun seq hseq => ?_
    have hin : s.sessions.InFlight (BlobId.new s.sessions.session.state.token seq) :=
      ⟨BlobId.writerToken_new _ _, by rw [BlobId.seq_new]; exact hseq⟩
    obtain ⟨u, hu, howns⟩ := h.owned _ hin
    obtain ⟨result, hphase⟩ := hall u hu
    rcases howns with hmem | ⟨blobs, slices, caller, hminting, -⟩
    · exact hresolved u hu result hphase _ hmem hin
    · rw [hphase] at hminting
      cases hminting
  rw [TokenState.commitWatermark, hempty]
  rfl

/-- In every run of any number of uploads on one session, with rotations, heartbeats and other uploads at any
point, in which no upload fails while it has ids of the current token: no upload that has returned has an id in
flight, and when all have, the watermark is the last minted sequence number. -/
theorem uploads_settled {rs : ReedSolomon} {code : CodeMode}
    (hrs : rs.Reconstructs code.data code.parity) (blake3 : Bytes → Vector UInt8 32)
    (totalUnits : ℕ) {answer : Except ClientError WriterToken} {staleAfterMillis nowMillis : UInt64}
    {session : WriterSession}
    (hsession : WriterSession.establish answer staleAfterMillis nowMillis = .ok session)
    (events : List ServiceEvent)
    (hclean : Along (step rs blake3 code totalUnits) (Clean code) (new session) events) :
    Settled (run (step rs blake3 code totalUnits) (new session) events) := by
  have hfresh : session.state.inFlight = ∅ := by
    cases answer with
    | error e => cases hsession
    | ok token =>
      rw [← Except.ok.inj hsession]
      rfl
  exact (Along.invariant (P := Books) (fun _ _ hs hc => hs.step hrs blake3 totalUnits hc)
    (books_new hfresh) hclean).settled

/-- One upload of one blob, up to its metadata call. -/
def oneBlob (kind : PutKind) (i : ℕ) : List ServiceEvent :=
  [.call kind [1, 2], .act i .admitted, .act i (.next 1), .background (.advance i), .act i .given,
    .act i (.sent [⟨some demoChunk, [.answer 0 .committed, .answer 1 .committed]⟩]
      ⟨fun _ => none, []⟩), .act i (.next 1)]

/-- A PUT and, before its metadata is committed, a part; both end well. -/
def twoGoodUploads : List ServiceEvent :=
  oneBlob (.object 0) 0 ++ oneBlob .part 1 ++ [.act 1 (.answered .ok), .act 0 (.answered .ok),
    .act 1 .resolved, .act 0 .resolved, .act 0 .resolved, .act 1 .resolved]

theorem uploads_settled_demo :
    ∃ session, WriterSession.establish (.ok 7) 100 0 = .ok session
      ∧ Along (step replicas (fun _ => .replicate 32 0) demoCode 1) (Clean demoCode) (new session)
        twoGoodUploads
      ∧ Settled (run (step replicas (fun _ => .replicate 32 0) demoCode 1) (new session)
        twoGoodUploads) := by
  have hclean : Along (step replicas (fun _ => .replicate 32 0) demoCode 1) (Clean demoCode)
      (new ⟨100, .fresh 7, 0⟩) twoGoodUploads := by decide +kernel
  have hsession : WriterSession.establish (.ok 7) 100 0 = .ok ⟨100, .fresh 7, 0⟩ := rfl
  exact ⟨⟨100, .fresh 7, 0⟩, hsession, hclean,
    uploads_settled (replicas_reconstructs 2) _ 1 hsession twoGoodUploads hclean⟩

/-- A part of an upload that does not exist any more. -/
def rejectedPart : ObjectService :=
  run (step replicas (fun _ => .replicate 32 0) demoCode 1) (new ⟨100, .fresh 7, 0⟩)
    (oneBlob .part 0 ++ [.act 0 (.answered (.rejected "unknown upload id"))])

/-- The call has returned with the rejection, and its id holds the watermark back. -/
theorem rejected_part_stays_in_flight :
    rejectedPart.calls.map (fun u => (u.minted, u.phase.result))
        = [([BlobId.new 7 0], some (.error (.Meta (.inr "unknown upload id")), false))]
      ∧ rejectedPart.sessions.InFlight (BlobId.new 7 0)
      ∧ rejectedPart.sessions.session.state.commitWatermark = (7, -1)
      ∧ ¬ Settled rejectedPart := by
  have hcalls : rejectedPart.calls.map (fun u => (u.minted, u.phase.result))
      = [([BlobId.new 7 0], some (.error (.Meta (.inr "unknown upload id")), false))] := by
    decide +kernel
  have hin : rejectedPart.sessions.InFlight (BlobId.new 7 0) := by decide +kernel
  refine ⟨hcalls, hin, by decide +kernel, fun hsettled => ?_⟩
  obtain ⟨u, hu, hpair⟩ : ∃ u ∈ rejectedPart.calls, (u.minted, u.phase.result)
      = ([BlobId.new 7 0], some (.error (.Meta (.inr "unknown upload id")), false)) := by
    refine List.mem_map.mp ?_
    rw [hcalls]
    exact List.mem_singleton_self _
  obtain ⟨hminted, hresult⟩ := Prod.mk.inj hpair
  refine hsettled.resolved u hu _ (PutPhase.eq_returned hresult) _ ?_ hin
  rw [hminted]
  exact List.mem_singleton_self _

end ObjectService

end Gateway

end Epoch
