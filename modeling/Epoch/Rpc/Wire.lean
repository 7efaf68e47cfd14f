import Epoch.Lib.Bytes
import Epoch.Lib.Run

/-!
# Frames on a connection (`epoch-rpc/src/frame.rs`, `conn.rs`)

The tasks that share a client connection send their frames one after the other, under the lock of the write half.
A send is a vectored write of header and body and further writes for what the socket did not take, so its future
can be dropped with a frame half written; the lock is then free for the next sender.

A `Send` is one call of `Connection::send`, its state the write it is in.  `Wire.step` lets a task begin a send,
gives the lock to any send that waits for it, lets the socket take some bytes, and ends a send at any point (the
future is dropped, or the write fails).

`wire_carries_whole_frames`: as long as nothing is written behind a frame that was given up half way, the bytes on
the wire are a prefix of whole frames; `next_frame_follows_a_torn_one` is what happens otherwise.
-/

namespace Epoch.Rpc

/-! ## Frame headers -/

def FRAME_HEADER_LEN : ℕ := 50

/-- `"ER"`. -/
def FRAME_MAGIC : Bytes := [69, 82]

def PROTOCOL_VERSION : UInt8 := 1

structure FrameHeader where
  pcode : UInt16
  flags : UInt8
  streamId : UInt32
  seq : UInt32
  session : UInt64
  payloadLen : UInt32
  traceId : UInt64
  deadlineMs : UInt32
deriving DecidableEq

def le16 (x : UInt16) : Bytes := (beBytes 2 x.toNat).reverse

namespace FrameHeader

/-- The header with a checksum in its place; the reserved tail is zero. -/
def withCrc (header : FrameHeader) (crc : UInt32) : Bytes :=
  FRAME_MAGIC ++ [PROTOCOL_VERSION, header.flags] ++ le16 header.pcode ++ le32 header.streamId
    ++ le32 header.seq ++ le64 header.session ++ le32 header.payloadLen ++ le64 header.traceId
    ++ le32 header.deadlineMs ++ le32 crc ++ List.replicate 8 0

def encode (crc32c : Bytes → UInt32) (header : FrameHeader) : Bytes :=
  header.withCrc (crc32c (header.withCrc 0))

lemma length_encode (crc32c : Bytes → UInt32) (header : FrameHeader) :
    (header.encode crc32c).length = FRAME_HEADER_LEN := by
  simp [encode, withCrc, FRAME_MAGIC, le16, FRAME_HEADER_LEN]

end FrameHeader

/-! ## Sends -/

inductive SendState
  /-- Waits for the lock. -/
  | waiting
  /-- In `write_vectored` of header and body. -/
  | vectored
  /-- In `write_all` of the header from an offset. -/
  | headerRest (off : ℕ)
  | bodyRest (off : ℕ)
  /-- Returned or dropped, with this many bytes of the frame taken. -/
  | ended (written : ℕ)
deriving DecidableEq

structure Send where
  header : Bytes
  headerLen : header.length = FRAME_HEADER_LEN
  body : Bytes
  state : SendState

namespace Send

variable (s : Send)

def frame : Bytes := s.header ++ s.body

/-- How much of the frame the socket has taken. -/
def written : ℕ :=
  match s.state with
  | .waiting | .vectored => 0
  | .headerRest off => off
  | .bodyRest off => FRAME_HEADER_LEN + off
  | .ended written => written

def writing : Bool :=
  match s.state with
  | .vectored | .headerRest _ | .bodyRest _ => true
  | .waiting | .ended _ => false

/-- Given up between the first and the last byte. -/
def torn : Bool :=
  match s.state with
  | .ended written => 0 < written && written < s.frame.length
  | _ => false

/-- The first write of `send_frame`. -/
def start : SendState := if s.body = [] then .headerRest 0 else .vectored

def bodyFrom (off : ℕ) : SendState :=
  if off < s.body.length then .bodyRest off else .ended s.frame.length

/-- The socket takes `n` bytes in the write that is under way. -/
def take (n : ℕ) : Option (Bytes × SendState) :=
  match s.state with
  | .vectored =>
    if n ≤ s.frame.length then
      some (s.frame.take n,
        if n < FRAME_HEADER_LEN then .headerRest n else s.bodyFrom (n - FRAME_HEADER_LEN))
    else none
  | .headerRest off =>
    if 0 < n ∧ off + n ≤ FRAME_HEADER_LEN then
      some ((s.header.drop off).take n,
        if off + n < FRAME_HEADER_LEN then .headerRest (off + n) else s.bodyFrom 0)
    else none
  | .bodyRest off =>
    if 0 < n ∧ off + n ≤ s.body.length then
      some ((s.body.drop off).take n, s.bodyFrom (off + n))
    else none
  | .waiting | .ended _ => none

end Send

/-- The write half of a connection, and the sends on it. -/
structure Wire where
  bytes : Bytes
  lock : Option ℕ
  sends : List Send

inductive WireEvent
  /-- A task begins to send a frame. -/
  | send (header : FrameHeader) (body : Bytes)
  | acquire (i : ℕ)
  | take (i n : ℕ)
  /-- The future of the send is dropped, or the socket fails. -/
  | drop (i : ℕ)

namespace Wire

def new : Wire := ⟨[], none, []⟩

def set (w : Wire) (i : ℕ) (s : Send) (state : SendState) : List Send :=
  w.sends.set i { s with state }

def step (crc32c : Bytes → UInt32) (w : Wire) : WireEvent → Wire
  | .send header body =>
    -- a longer body is refused before anything is written
    if body.length < 2 ^ 32 then
      { w with sends := w.sends ++ [⟨{ header with payloadLen := UInt32.ofNat body.length }.encode
        crc32c, FrameHeader.length_encode _ _, body, .waiting⟩] }
    else w
  | .acquire i =>
    match w.sends[i]? with
    | some s =>
      if w.lock = none ∧ s.state = .waiting then
        { w with lock := some i, sends := w.set i s s.start }
      else w
    | none => w
  | .take i n =>
    match w.sends[i]? with
    | some s =>
      match s.take n with
      | some (taken, state) =>
        { bytes := w.bytes ++ taken
          lock := if state = .ended s.frame.length then none else w.lock
          sends := w.set i s state }
      | none => w
    | none => w
  | .drop i =>
    match w.sends[i]? with
    | some s =>
      { w with
        lock := if w.lock = some i then none else w.lock
        sends := w.set i s (.ended s.written) }
    | none => w

def frame (w : Wire) (i : ℕ) : Bytes := (w.sends[i]?.map Send.frame).getD []

/-- The bytes on the wire are a prefix of whole frames, in some order of the sends. -/
def WholeFrames (w : Wire) : Prop :=
  ∃ order : List ℕ, order.Nodup ∧ (∀ i ∈ order, i < w.sends.length)
    ∧ w.bytes <+: order.flatMap w.frame

/-- Nothing is written once a send was given up half way. -/
def Unbroken (w : Wire) : WireEvent → Prop
  | .take _ _ => ∀ s ∈ w.sends, s.torn = false
  | .send _ _ | .acquire _ | .drop _ => True

instance (w : Wire) : (event : WireEvent) → Decidable (w.Unbroken event)
  | .take _ _ => inferInstanceAs (Decidable (∀ s ∈ w.sends, s.torn = false))
  | .send _ _ | .acquire _ | .drop _ => inferInstanceAs (Decidable True)

end Wire

/-! ## What a send writes -/

namespace Send

variable {s : Send}

lemma length_frame : s.frame.length = FRAME_HEADER_LEN + s.body.length := by
  rw [frame, List.length_append, s.headerLen]

/-- The send with its body written up to an offset. -/
lemma take_bodyFrom {off : ℕ} (h : off ≤ s.body.length) :
    s.frame.take ({ s with state := s.bodyFrom off } : Send).written
      = s.frame.take (FRAME_HEADER_LEN + off) := by
  rw [bodyFrom]
  split_ifs with hlt
  · rfl
  · have hoff : off = s.body.length := by omega
    show s.frame.take s.frame.length = _
    rw [length_frame, hoff]

lemma writing_or_ended_bodyFrom (off : ℕ) :
    ({ s with state := s.bodyFrom off } : Send).writing = true
      ∨ s.bodyFrom off = .ended s.frame.length := by
  rw [bodyFrom]
  split_ifs
  · exact Or.inl rfl
  · exact Or.inr rfl

lemma take_drop_header {off n : ℕ} (h : off + n ≤ FRAME_HEADER_LEN) :
    (s.frame.drop off).take n = (s.header.drop off).take n := by
  rw [frame, List.drop_append_of_le_length (by rw [s.headerLen]; omega),
    List.take_append_of_le_length (by rw [List.length_drop, s.headerLen]; omega)]

/-- Writes take the frame from its front, and the last one ends the send. -/
lemma take_spec {n : ℕ} {taken : Bytes} {state : SendState} (h : s.take n = some (taken, state)) :
    s.writing = true
      ∧ s.frame.take s.written ++ taken = s.frame.take ({ s with state } : Send).written
      ∧ (({ s with state } : Send).writing = true ∨ state = .ended s.frame.length) := by
  unfold take at h
  cases hstate : s.state with
  | waiting => simp [hstate] at h
  | ended k => simp [hstate] at h
  | vectored =>
    have hnone : s.frame.take s.written = [] := by rw [written, hstate, List.take_zero]
    simp only [hstate] at h
    rw [hnone, List.nil_append]
    split_ifs at h with hn hlt
    · obtain ⟨rfl, rfl⟩ := Prod.mk.inj (Option.some.inj h)
      exact ⟨by simp [writing, hstate], rfl, Or.inl rfl⟩
    · obtain ⟨rfl, rfl⟩ := Prod.mk.inj (Option.some.inj h)
      refine ⟨by simp [writing, hstate], ?_, writing_or_ended_bodyFrom _⟩
      rw [take_bodyFrom (by rw [length_frame] at hn; omega)]
      congr 1
      omega
  | headerRest off =>
    have hoff : s.written = off := by rw [written, hstate]
    simp only [hstate] at h
    rw [hoff]
    split_ifs at h with hn hlt
    · obtain ⟨rfl, rfl⟩ := Prod.mk.inj (Option.some.inj h)
      refine ⟨by simp [writing, hstate], ?_, Or.inl rfl⟩
      rw [← take_drop_header hn.2, ← List.take_add]
      rfl
    · obtain ⟨rfl, rfl⟩ := Prod.mk.inj (Option.some.inj h)
      refine ⟨by simp [writing, hstate], ?_, writing_or_ended_bodyFrom _⟩
      rw [← take_drop_header hn.2, ← List.take_add, take_bodyFrom (Nat.zero_le _)]
      congr 1
      omega
  | bodyRest off =>
    simp only [hstate] at h
    split_ifs at h with hn
    obtain ⟨rfl, rfl⟩ := Prod.mk.inj (Option.some.inj h)
    refine ⟨by simp [writing, hstate], ?_, writing_or_ended_bodyFrom _⟩
    have hoff : s.written = FRAME_HEADER_LEN + off := by rw [written, hstate]
    have hpart : s.frame.drop (FRAME_HEADER_LEN + off) = s.body.drop off := by
      rw [frame, ← s.headerLen, List.drop_length_add_append]
    rw [hoff, ← hpart, ← List.take_add, take_bodyFrom hn.2, Nat.add_assoc]

end Send

/-! ## The wire -/

namespace Wire

variable {w : Wire}

/-- The part of the holder's frame that is on the wire. -/
def current (w : Wire) : Bytes :=
  (w.lock.bind fun i => w.sends[i]?).elim [] fun s => s.frame.take s.written

/-- The wire holds the frames of the sends that are done, in this order, and a part of the holder's. -/
structure Sound (w : Wire) (done : List ℕ) : Prop where
  nodup : done.Nodup
  finished : ∀ i ∈ done, ∃ s k, w.sends[i]? = some s ∧ s.state = .ended k ∧ s.frame.length ≤ k
  holder : ∀ i, w.lock = some i → ∃ s, w.sends[i]? = some s
  lock : ∀ i s, w.sends[i]? = some s → (s.writing = true ↔ w.lock = some i)
  bytes : w.bytes = done.flatMap w.frame ++ w.current

variable {s : Send} {i : ℕ} {done : List ℕ}

lemma frame_eq (h : w.sends[i]? = some s) : w.frame i = s.frame := by
  rw [frame, h]
  rfl

lemma lt_length (h : w.sends[i]? = some s) : i < w.sends.length :=
  (List.getElem?_eq_some_iff.mp h).1

lemma getElem?_set (h : w.sends[i]? = some s) (state : SendState) (j : ℕ) :
    (w.set i s state)[j]? = if j = i then some { s with state } else w.sends[j]? := by
  by_cases hj : j = i
  · rw [if_pos hj, hj]
    exact List.getElem?_set_self (lt_length h)
  · rw [if_neg hj]
    exact List.getElem?_set_ne (Ne.symm hj)

/-- The frames do not change with the state of a send. -/
lemma frame_set (h : w.sends[i]? = some s) (state : SendState) (bytes : Bytes) (lock : Option ℕ) :
    frame ⟨bytes, lock, w.set i s state⟩ = w.frame := by
  funext j
  rw [frame, getElem?_set h]
  split_ifs with hj
  · rw [hj, frame_eq h]
    rfl
  · rfl

lemma WholeFrames.set (hw : w.WholeFrames) (h : w.sends[i]? = some s) (state : SendState)
    (lock : Option ℕ) : WholeFrames ⟨w.bytes, lock, w.set i s state⟩ := by
  obtain ⟨order, hnodup, hvalid, hinit⟩ := hw
  refine ⟨order, hnodup, fun j hj => ?_, ?_⟩
  · rw [Wire.set, List.length_set]
    exact hvalid j hj
  · rw [frame_set h]
    exact hinit

/-- The holder's frame is not among those that are done. -/
lemma Sound.notMem (h : w.Sound done) (hs : w.sends[i]? = some s)
    (hended : ∀ k, s.state ≠ .ended k) : i ∉ done := by
  intro hi
  obtain ⟨s', k, hs', hk, -⟩ := h.finished i hi
  rw [hs] at hs'
  exact hended k ((Option.some.inj hs') ▸ hk)

lemma Sound.nodup_snoc (h : w.Sound done) (hi : i ∉ done) :
    (done ++ [i]).Nodup := by
  rw [← List.concat_eq_append]
  exact h.nodup.concat hi

lemma current_of_lock (hlock : w.lock = some i) (hs : w.sends[i]? = some s) :
    w.current = s.frame.take s.written := by
  rw [current, hlock, Option.bind_some, hs]
  rfl

lemma current_of_none (hlock : w.lock = none) : w.current = [] := by
  rw [current, hlock]
  rfl

lemma current_set (hs : w.sends[i]? = some s) (state : SendState) (bytes : Bytes) :
    current ⟨bytes, some i, w.set i s state⟩
      = s.frame.take ({ s with state } : Send).written :=
  current_of_lock rfl (by rw [getElem?_set hs, if_pos rfl])

lemma not_ended_of_writing (h : s.writing = true) (k : ℕ) : s.state ≠ .ended k := by
  intro hk
  rw [Send.writing, hk] at h
  cases h

lemma Sound.wholeFrames (h : w.Sound done) : w.WholeFrames := by
  have hvalid : ∀ i ∈ done, i < w.sends.length := by
    intro i hi
    obtain ⟨s, k, hs, -⟩ := h.finished i hi
    exact lt_length hs
  cases hlock : w.lock with
  | none =>
    refine ⟨done, h.nodup, hvalid, ?_⟩
    rw [h.bytes, current_of_none hlock, List.append_nil]
  | some i =>
    obtain ⟨s, hs⟩ := h.holder i hlock
    have hwriting := (h.lock i s hs).mpr hlock
    refine ⟨done ++ [i], ?_, fun j hj => ?_, ?_⟩
    · exact h.nodup_snoc (h.notMem hs (not_ended_of_writing hwriting))
    · rcases List.mem_append.mp hj with hj | hj
      · exact hvalid j hj
      · rw [List.mem_singleton.mp hj]
        exact lt_length hs
    · rw [h.bytes, current_of_lock hlock hs, List.flatMap_append, List.flatMap_singleton,
        frame_eq hs]
      exact (List.prefix_append_right_inj _).mpr (List.take_prefix _ _)

/-- Until a frame is torn the wire is sound, and after that it does not grow. -/
structure Inv (w : Wire) : Prop where
  whole : w.WholeFrames
  sound : (∀ s ∈ w.sends, s.torn = false) → ∃ done, w.Sound done

lemma inv_new : Inv new where
  whole := ⟨[], List.nodup_nil, fun _ h => absurd h List.not_mem_nil, List.nil_prefix⟩
  sound := fun _ => ⟨[], List.nodup_nil, fun _ h => absurd h List.not_mem_nil,
    fun _ h => (by cases h), fun _ _ h => (by cases h), rfl⟩

lemma Inv.send (h : w.Inv) (hs : s.state = .waiting) :
    Inv { w with sends := w.sends ++ [s] } := by
  have hold : ∀ (j : ℕ) (t : Send), w.sends[j]? = some t → (w.sends ++ [s])[j]? = some t :=
    fun j t ht => (List.getElem?_append_left (lt_length ht)).trans ht
  have hframe : ∀ order : List ℕ, (∀ i ∈ order, i < w.sends.length) →
      order.flatMap (frame { w with sends := w.sends ++ [s] }) = order.flatMap w.frame := by
    intro order hvalid
    refine List.flatMap_congr fun i hi => ?_
    have ht := List.getElem?_eq_getElem (hvalid i hi)
    rw [frame_eq ht, frame_eq (w := { w with sends := w.sends ++ [s] }) (hold i _ ht)]
  constructor
  · obtain ⟨order, hnodup, hvalid, hinit⟩ := h.whole
    refine ⟨order, hnodup, fun i hi => ?_, ?_⟩
    · rw [List.length_append]
      exact Nat.lt_add_right _ (hvalid i hi)
    · rw [hframe order hvalid]
      exact hinit
  · intro htorn
    obtain ⟨done, hdone⟩ := h.sound fun t ht => htorn t (List.mem_append_left _ ht)
    have hcurrent : current { w with sends := w.sends ++ [s] } = w.current := by
      cases hlock : w.lock with
      | none =>
        rw [current_of_none hlock]
        rfl
      | some i =>
        obtain ⟨t, ht⟩ := hdone.holder i hlock
        rw [current_of_lock hlock ht]
        exact current_of_lock (w := ⟨w.bytes, some i, w.sends ++ [s]⟩) rfl (hold i t ht)
    refine ⟨done, hdone.nodup, fun i hi => ?_, fun i hi => ?_, fun i t ht => ?_, ?_⟩
    · obtain ⟨t, k, ht, hk⟩ := hdone.finished i hi
      exact ⟨t, k, hold i t ht, hk⟩
    · obtain ⟨t, ht⟩ := hdone.holder i hi
      exact ⟨t, hold i t ht⟩
    · by_cases hlt : i < w.sends.length
      · rw [List.getElem?_append_left hlt] at ht
        exact hdone.lock i t ht
      · rw [List.getElem?_append_right (not_lt.mp hlt)] at ht
        have htnew : s = t := by
          have := List.mem_of_getElem? ht
          exact (List.mem_singleton.mp this).symm
        rw [← htnew, Send.writing, hs]
        refine ⟨fun hf => (by cases hf), fun hlock => ?_⟩
        obtain ⟨t', ht'⟩ := hdone.holder i hlock
        exact absurd (lt_length ht') hlt
    · rw [hframe done fun i hi => by
        obtain ⟨t, k, ht, -⟩ := hdone.finished i hi
        exact lt_length ht]
      rw [hcurrent]
      exact hdone.bytes

/-- A send changes its state, and the bytes and the lock with it. -/
lemma Sound.set {done' : List ℕ} (h : w.Sound done) (hs : w.sends[i]? = some s)
    {state : SendState} {bytes : Bytes} {lock : Option ℕ} (hnodup : done'.Nodup)
    (hfinished : ∀ j ∈ done', j ∈ done ∧ j ≠ i ∨ j = i ∧ ∃ k, state = .ended k ∧ s.frame.length ≤ k)
    (hlock : ∀ j, j ≠ i → (lock = some j ↔ w.lock = some j))
    (hself : ({ s with state } : Send).writing = true ↔ lock = some i)
    (hbytes : bytes = done'.flatMap w.frame ++ current ⟨bytes, lock, w.set i s state⟩) :
    Sound ⟨bytes, lock, w.set i s state⟩ done' := by
  refine ⟨hnodup, fun j hj => ?_, fun j hj => ?_, fun j t ht => ?_, ?_⟩
  · rcases hfinished j hj with ⟨hmem, hne⟩ | ⟨rfl, k, hk, hlen⟩
    · obtain ⟨t, k, ht, hk⟩ := h.finished j hmem
      exact ⟨t, k, by rw [getElem?_set hs, if_neg hne, ht], hk⟩
    · exact ⟨{ s with state }, k, by rw [getElem?_set hs, if_pos rfl], hk, hlen⟩
  · by_cases hji : j = i
    · exact ⟨{ s with state }, by rw [getElem?_set hs, if_pos hji]⟩
    · obtain ⟨t, ht⟩ := h.holder j ((hlock j hji).mp hj)
      exact ⟨t, by rw [getElem?_set hs, if_neg hji, ht]⟩
  · rw [getElem?_set hs] at ht
    split_ifs at ht with hji
    · rw [← Option.some.inj ht, hji]
      exact hself
    · rw [h.lock j t ht]
      exact (hlock j hji).symm
  · rw [frame_set hs]
    exact hbytes

lemma Inv.acquire (h : w.Inv) (hs : w.sends[i]? = some s) (hlock : w.lock = none)
    (hwaiting : s.state = .waiting) :
    Inv { w with lock := some i, sends := w.set i s s.start } := by
  refine ⟨h.whole.set hs _ _, fun htorn => ?_⟩
  have hzero : ({ s with state := s.start } : Send).written = 0 := by
    rw [Send.start]
    split_ifs <;> rfl
  obtain ⟨done, hdone⟩ := h.sound fun t ht => by
    obtain ⟨j, hj⟩ := List.mem_iff_getElem?.mp ht
    by_cases hji : j = i
    · rw [hji, hs] at hj
      rw [← Option.some.inj hj, Send.torn, hwaiting]
    · refine htorn t (List.mem_of_getElem? (i := j) ?_)
      show (w.set i s s.start)[j]? = some t
      rw [getElem?_set hs, if_neg hji, hj]
  have hnot : i ∉ done := hdone.notMem hs (by simp [hwaiting])
  refine ⟨done, hdone.set hs hdone.nodup (fun j hj => Or.inl ⟨hj, fun hji => hnot (hji ▸ hj)⟩)
    (fun j hji => ?_) ?_ ?_⟩
  · rw [hlock]
    simp [Ne.symm hji]
  · refine ⟨fun _ => rfl, fun _ => ?_⟩
    rw [Send.start]
    split_ifs <;> rfl
  · rw [current_set hs, hzero, List.take_zero, List.append_nil, hdone.bytes, current_of_none hlock,
      List.append_nil]

lemma Inv.take (h : w.Inv) (htorn : ∀ s ∈ w.sends, s.torn = false) {n : ℕ}
    (hs : w.sends[i]? = some s) {taken : Bytes} {state : SendState}
    (htake : s.take n = some (taken, state)) :
    Inv ⟨w.bytes ++ taken, if state = .ended s.frame.length then none else w.lock,
      w.set i s state⟩ := by
  obtain ⟨done, hdone⟩ := h.sound htorn
  obtain ⟨hwriting, hbytes, hnext⟩ := Send.take_spec htake
  have hlock : w.lock = some i := (hdone.lock i s hs).mp hwriting
  have hnot : i ∉ done := hdone.notMem hs (not_ended_of_writing hwriting)
  have hall : w.bytes ++ taken
      = done.flatMap w.frame ++ s.frame.take ({ s with state } : Send).written := by
    rw [hdone.bytes, current_of_lock hlock hs, List.append_assoc, hbytes]
  suffices hsound : ∃ done', Sound ⟨w.bytes ++ taken,
      if state = .ended s.frame.length then none else w.lock, w.set i s state⟩ done' from
    ⟨hsound.elim fun _ hd => hd.wholeFrames, fun _ => hsound⟩
  by_cases hended : state = .ended s.frame.length
  · rw [if_pos hended]
    refine ⟨done ++ [i], hdone.set hs ?_ (fun j hj => ?_) (fun j hji => ?_) ?_ ?_⟩
    · exact hdone.nodup_snoc hnot
    · rcases List.mem_append.mp hj with hj | hj
      · exact Or.inl ⟨hj, fun hji => hnot (hji ▸ hj)⟩
      · exact Or.inr ⟨List.mem_singleton.mp hj, _, hended, le_rfl⟩
    · rw [hlock]
      simp [Ne.symm hji]
    · rw [hended]
      simp [Send.writing]
    · have hwritten : ({ s with state } : Send).written = s.frame.length := by rw [hended]; rfl
      rw [hall, hwritten, List.take_length, current_of_none rfl, List.append_nil,
        List.flatMap_append, List.flatMap_singleton, frame_eq hs]
  · rw [if_neg hended]
    refine ⟨done, hdone.set hs hdone.nodup
      (fun j hj => Or.inl ⟨hj, fun hji => hnot (hji ▸ hj)⟩) (fun _ _ => Iff.rfl) ?_ ?_⟩
    · exact ⟨fun _ => hlock, fun _ => hnext.resolve_right hended⟩
    · rw [hlock, current_set hs]
      exact hall

lemma Inv.drop (h : w.Inv) (hs : w.sends[i]? = some s) :
    Inv ⟨w.bytes, if w.lock = some i then none else w.lock, w.set i s (.ended s.written)⟩ := by
  refine ⟨h.whole.set hs _ _, fun htorn => ?_⟩
  have hself := htorn { s with state := .ended s.written }
    (List.mem_of_getElem? (by rw [getElem?_set hs, if_pos rfl]))
  obtain ⟨done, hdone⟩ := h.sound fun t ht => by
    obtain ⟨j, hj⟩ := List.mem_iff_getElem?.mp ht
    by_cases hji : j = i
    · rw [hji, hs] at hj
      rw [← Option.some.inj hj]
      cases hstate : s.state with
      | ended k =>
        simp only [Send.torn, Send.written, hstate] at hself ⊢
        exact hself
      | _ => simp [Send.torn, hstate]
    · refine htorn t (List.mem_of_getElem? (i := j) ?_)
      show (w.set i s (.ended s.written))[j]? = some t
      rw [getElem?_set hs, if_neg hji, hj]
  by_cases hlock : w.lock = some i
  · rw [if_pos hlock]
    have hwriting : s.writing = true := (hdone.lock i s hs).mpr hlock
    have hnot : i ∉ done := hdone.notMem hs (not_ended_of_writing hwriting)
    have hfree : ∀ j, j ≠ i → ((none : Option ℕ) = some j ↔ w.lock = some j) := by
      intro j hji
      rw [hlock]
      simp [Ne.symm hji]
    have hidle : ({ s with state := .ended s.written } : Send).writing = true
        ↔ (none : Option ℕ) = some i := by simp [Send.writing]
    by_cases hzero : s.written = 0
    · refine ⟨done, hdone.set hs hdone.nodup
        (fun j hj => Or.inl ⟨hj, fun hji => hnot (hji ▸ hj)⟩) hfree hidle ?_⟩
      rw [current_of_none rfl, hdone.bytes, current_of_lock hlock hs, hzero, List.take_zero]
    · have hlen : s.frame.length ≤ s.written := by
        simp only [Send.torn, Bool.and_eq_false_iff, decide_eq_false_iff_not] at hself
        have : ¬ s.written < s.frame.length := hself.resolve_left fun hn => hn (Nat.pos_of_ne_zero hzero)
        exact not_lt.mp this
      refine ⟨done ++ [i], hdone.set hs ?_ (fun j hj => ?_) hfree hidle ?_⟩
      · exact hdone.nodup_snoc hnot
      · rcases List.mem_append.mp hj with hj | hj
        · exact Or.inl ⟨hj, fun hji => hnot (hji ▸ hj)⟩
        · exact Or.inr ⟨List.mem_singleton.mp hj, _, rfl, hlen⟩
      · rw [current_of_none rfl, hdone.bytes, current_of_lock hlock hs, List.take_of_length_le hlen,
          List.append_nil, List.flatMap_append, List.flatMap_singleton, frame_eq hs]
  · rw [if_neg hlock]
    have hidle : s.writing = false := by
      rw [← Bool.not_eq_true]
      exact fun hw => hlock ((hdone.lock i s hs).mp hw)
    refine ⟨done, hdone.set hs hdone.nodup (fun j hj => ?_) (fun _ _ => Iff.rfl) ?_ ?_⟩
    · by_cases hji : j = i
      · obtain ⟨t, k, ht, hk, hlen⟩ := hdone.finished j hj
        rw [hji, hs] at ht
        rw [← Option.some.inj ht] at hk hlen
        exact Or.inr ⟨hji, s.written, rfl, by rw [Send.written, hk]; exact hlen⟩
      · exact Or.inl ⟨hj, hji⟩
    · refine ⟨fun hw => ?_, fun hl => absurd hl hlock⟩
      simp [Send.writing] at hw
    · rw [hdone.bytes]
      congr 1
      cases hl : w.lock with
      | none => rw [current_of_none hl]; rfl
      | some j =>
        have hji : j ≠ i := fun heq => hlock (heq ▸ hl)
        obtain ⟨t, ht⟩ := hdone.holder j hl
        rw [current_of_lock hl ht]
        refine (current_of_lock rfl ?_).symm
        rw [getElem?_set hs, if_neg hji, ht]

lemma Inv.step {crc32c : Bytes → UInt32} (h : w.Inv) {event : WireEvent}
    (hevent : w.Unbroken event) : Inv (step crc32c w event) := by
  cases event with
  | send header body =>
    rw [Wire.step]
    split_ifs
    · exact h.send rfl
    · exact h
  | acquire i =>
    rw [Wire.step]
    cases hs : w.sends[i]? with
    | none => exact h
    | some s =>
      dsimp only
      split_ifs with hfree
      · exact h.acquire hs hfree.1 hfree.2
      · exact h
  | take i n =>
    rw [Wire.step]
    cases hs : w.sends[i]? with
    | none => exact h
    | some s =>
      dsimp only
      cases htake : s.take n with
      | none => exact h
      | some r => exact h.take hevent hs htake
  | drop i =>
    rw [Wire.step]
    cases hs : w.sends[i]? with
    | none => exact h
    | some s => exact h.drop hs

/-- For any number of sends, given up at any point, in every run in which nothing is written behind a frame that
was given up half way: the bytes on the wire are a prefix of whole frames. -/
theorem wire_carries_whole_frames (crc32c : Bytes → UInt32) (events : List WireEvent)
    (h : Along (step crc32c) Unbroken new events) : WholeFrames (run (step crc32c) new events) :=
  (Along.invariant (P := Inv) (fun _ _ hw he => hw.step he) inv_new h).whole

def demoHeader (streamId : UInt32) : FrameHeader := ⟨7, 0, streamId, 0, 0, 0, 0, 0⟩

/-- The second send waits for the lock, is dropped there, and a third one goes through. -/
def droppedInLine : List WireEvent :=
  [.send (demoHeader 1) [1, 2], .send (demoHeader 2) [3], .acquire 0, .take 0 20, .acquire 1,
    .drop 1, .take 0 30, .take 0 2, .send (demoHeader 3) [], .acquire 2, .take 2 50]

theorem wire_carries_whole_frames_demo :
    Along (step fun _ => 0) Unbroken new droppedInLine
      ∧ WholeFrames (run (step fun _ => 0) new droppedInLine) :=
  have h : Along (step fun _ => 0) Unbroken new droppedInLine := by decide +kernel
  ⟨h, wire_carries_whole_frames (fun _ => 0) droppedInLine h⟩

/-- A send is dropped when the socket has taken one byte of its frame, and another one goes through. -/
def tornSend : Wire :=
  run (step fun _ => 0) new [.send (demoHeader 1) [1, 2], .send (demoHeader 2) [], .acquire 0,
    .take 0 1, .drop 0, .acquire 1, .take 1 50]

theorem next_frame_follows_a_torn_one :
    tornSend.bytes = 69 :: (demoHeader 2).encode (fun _ => 0) ∧ ¬ tornSend.WholeFrames := by
  have hbytes : tornSend.bytes = 69 :: (demoHeader 2).encode (fun _ => 0) := by decide +kernel
  refine ⟨hbytes, ?_⟩
  rintro ⟨order, -, hvalid, hinit⟩
  have hstart : ∀ i < 2, tornSend.frame i = 69 :: 82 :: (tornSend.frame i).drop 2 := by
    decide +kernel
  rw [hbytes] at hinit
  cases order with
  | nil => exact absurd hinit (by simp)
  | cons i order =>
    have hlen : tornSend.sends.length = 2 := by decide +kernel
    rw [List.flatMap_cons, hstart i (hlen ▸ hvalid i List.mem_cons_self)] at hinit
    obtain ⟨t, ht⟩ := hinit
    have hmagic : ((demoHeader 2).encode fun _ => 0) = 69 :: ((demoHeader 2).encode fun _ => 0).drop 1 := by
      decide +kernel
    rw [hmagic] at ht
    simp at ht

end Wire

end Epoch.Rpc
