import Pruner.Lib.PartialRun

/-!
# Session handshake of the micro RPC transport

Two endpoints agree on a session id by exchanging `kStartSessionInit` and
`kStartSessionReply` messages whose ids are built from one nonce of each side
(`utvm_rpc_common/session.cc`).  An endpoint is a state machine with four states; the
framer below it is the list of the messages it has sent, and a reliable in-order channel is
that list together with how much of it the other side has processed.

The invariant is local to one endpoint.  An established endpoint processed nothing after
the message that established it: that message was either the reply that carries its
session id, its own last message being the request, or a request, its own last message
being the reply that carries its session id (`Session.Settled`).  When both channels are
empty the last message one side sent is the last one the other side processed, and the
two ids are the same.

## Main definitions

* `Session.startSession`, `Session.terminateSession`, `Session.packetDone` — the endpoint.
* `System`, `System.run` — two endpoints, and interleavings of calls and deliveries.
* `Session.Settled` — what an established endpoint knows of the last messages.
* `System.sessionId_eq_of_established` — **the endpoints agree on the session id**.
-/

namespace Pruner.Runtime.MicroRpc

open List

/-! ## Messages -/

inductive MessageType where
  | startSessionInit
  | startSessionReply
  | terminateSession
  | log
  | normal
  | other (code : BitVec 8)
  deriving DecidableEq, Repr

structure SessionHeader where
  sessionId : BitVec 16
  messageType : MessageType
  deriving DecidableEq, Repr

structure Message where
  header : SessionHeader
  body : List (BitVec 8)
  deriving DecidableEq, Repr

variable {m : Message}

def kInvalidNonce : BitVec 8 := 0

def kVersion : BitVec 8 := 1

/-- The id that `SetSessionId` stores. -/
def mkSessionId (initiator responder : BitVec 8) : BitVec 16 :=
  initiator.setWidth 16 ||| (responder.setWidth 16 <<< 8)

def initiatorNonce (sessionId : BitVec 16) : BitVec 8 := (sessionId &&& 0xff).setWidth 8

def responderNonce (sessionId : BitVec 16) : BitVec 8 := ((sessionId >>> 8) &&& 0xff).setWidth 8

/-- The mask is lost in the narrowing. -/
theorem setWidth_and_mask (x : BitVec 16) : (x &&& 0xff).setWidth 8 = x.setWidth 8 := by
  have hmask : (0xff : BitVec 16).setWidth 8 = BitVec.allOnes 8 := by decide
  rw [BitVec.setWidth_and, hmask, BitVec.and_allOnes]

@[simp] theorem initiatorNonce_mkSessionId (i r : BitVec 8) :
    initiatorNonce (mkSessionId i r) = i := by
  rw [initiatorNonce, setWidth_and_mask]
  ext k hk
  simp [mkSessionId]

@[simp] theorem responderNonce_mkSessionId (i r : BitVec 8) :
    responderNonce (mkSessionId i r) = r := by
  rw [responderNonce, setWidth_and_mask]
  ext k hk
  simp [mkSessionId]
  grind

/-- The two nonces of an id give it back. -/
theorem mkSessionId_nonces (sid : BitVec 16) :
    mkSessionId (initiatorNonce sid) (responderNonce sid) = sid := by
  rw [initiatorNonce, responderNonce, setWidth_and_mask, setWidth_and_mask]
  ext k hk
  simp [mkSessionId]
  grind

/-! ## One endpoint -/

inductive SessionState where
  | reset
  | noSessionEstablished
  | startSessionSent
  | sessionEstablished
  deriving DecidableEq, Repr

structure Session where
  localNonce : BitVec 8
  sessionId : BitVec 16
  state : SessionState
  /-- Every message handed to the framer, oldest first. -/
  framer : List Message
  /-- The message types `message_received_func_` was called with. -/
  received : List MessageType
  deriving DecidableEq, Repr

namespace Session

def new : Session := ⟨kInvalidNonce, 0, .reset, [], []⟩

variable (s : Session)

def regenerateNonce : Session :=
  let n : BitVec 32 := s.localNonce.setWidth 32
  let nonce : BitVec 8 := ((n <<< 5 ||| n >>> 5) + 1).setWidth 8
  { s with localNonce := if nonce = kInvalidNonce then nonce + 1 else nonce }

def setSessionId (initiator responder : BitVec 8) : Session :=
  { s with sessionId := mkSessionId initiator responder }

/-- `StartMessage`, `SendBodyChunk` and `FinishPacket` over a framer that accepts all. -/
def sendInternal (messageType : MessageType) (body : List (BitVec 8)) : Session :=
  let id := if messageType = .log then 0 else s.sessionId
  { s with framer := s.framer ++ [⟨⟨id, messageType⟩, body⟩] }

def onSessionEstablishedMessage : Session :=
  { s with received := s.received ++ [.startSessionReply] }

def onSessionTerminatedMessage : Session := { s with received := s.received ++ [.terminateSession] }

/-- The body of `StartSession` after its check. -/
def requestSession : Session :=
  let s := s.regenerateNonce
  let s := s.setSessionId s.localNonce 0
  { s.sendInternal .startSessionInit [kVersion] with state := .startSessionSent }

/-- The call aborts in the reset state ("must call Initialize"). -/
def startSession : Option Session :=
  if s.state = .reset then none else some s.requestSession

def terminateSession : Session :=
  { s.setSessionId 0 0 with state := .noSessionEstablished }.sendInternal .terminateSession []

/-- `Initialize`. -/
def initializeSession (initialSessionNonce : BitVec 8) : Session :=
  { s with localNonce := initialSessionNonce }.terminateSession

def sendSessionStartReply (header : SessionHeader) : Session :=
  let s := s.regenerateNonce
  let s := s.setSessionId (initiatorNonce header.sessionId) s.localNonce
  let s := s.sendInternal .startSessionReply [kVersion]
  { s with state := .sessionEstablished }.onSessionEstablishedMessage

def processStartSessionInit (header : SessionHeader) (body : List (BitVec 8)) : Session :=
  if initiatorNonce header.sessionId = kInvalidNonce then s else
    match body with
    | [] => s
    | version :: _ =>
      match s.state with
      | .reset | .noSessionEstablished => s.sendSessionStartReply header
      | .startSessionSent =>
        if initiatorNonce header.sessionId < s.localNonce then
          if version = kVersion then s.sendSessionStartReply header else s
        else if initiatorNonce header.sessionId = s.localNonce then s.requestSession
        else s
      | .sessionEstablished =>
        (s.sendSessionStartReply header).onSessionEstablishedMessage

def processStartSessionReply (header : SessionHeader) (body : List (BitVec 8)) : Session :=
  if responderNonce header.sessionId = kInvalidNonce then s else
    match body with
    | [] => s
    | version :: _ =>
      match s.state with
      | .reset | .noSessionEstablished => s
      | .startSessionSent =>
        if initiatorNonce header.sessionId = s.localNonce ∧ version = kVersion then
          let s := s.setSessionId s.localNonce (responderNonce header.sessionId)
          { s with state := .sessionEstablished }.onSessionEstablishedMessage
        else s
      | .sessionEstablished =>
        if initiatorNonce header.sessionId ≠ kInvalidNonce ∧
            responderNonce header.sessionId = kInvalidNonce then
          if version = kVersion then s.sendSessionStartReply header
          else { s.setSessionId s.localNonce 0 with state := .reset }
        else { s with state := .reset }

/-- `PacketDone` on a valid packet that is alone in the receive buffer. -/
def packetDone (m : Message) : Session :=
  match m.header.messageType with
  | .startSessionInit => s.processStartSessionInit m.header m.body
  | .startSessionReply => s.processStartSessionReply m.header m.body
  | .terminateSession =>
    if s.state = .sessionEstablished then
      { s with state := .noSessionEstablished }.onSessionTerminatedMessage
    else s
  | .log =>
    if m.header.sessionId = 0 ∨ m.header.sessionId = s.sessionId then
      { s with received := s.received ++ [.log] }
    else s
  | t =>
    if s.state = .sessionEstablished ∧ m.header.sessionId = s.sessionId then
      { s with received := s.received ++ [t] }
    else s

end Session

/-! ## Two endpoints -/

/-- Two endpoints; side `i` has processed `delivered i` messages of the other side. -/
structure System where
  session : Bool → Session
  delivered : Bool → ℕ

variable (sys : System) (side : Bool)

namespace System

inductive Action where
  | startSession (side : Bool)
  | terminateSession (side : Bool)
  | deliver (side : Bool)

def initial (nonce : Bool → BitVec 8) : System where
  session side := Session.new.initializeSession (nonce side)
  delivered _ := 0

/-- The messages on their way to `side`. -/
def channel : List Message := (sys.session !side).framer.drop (sys.delivered side)

/-- The endpoint of `side` becomes `s` after it processed `count` more messages. -/
def advance (count : ℕ) (s : Session) : System where
  session := Function.update sys.session side s
  delivered := Function.update sys.delivered side (sys.delivered side + count)

def step : Action → Option System
  | .startSession side => (sys.session side).startSession.map (sys.advance side 0)
  | .terminateSession side => some (sys.advance side 0 (sys.session side).terminateSession)
  | .deliver side =>
    (sys.channel side).head?.map fun m => sys.advance side 1 ((sys.session side).packetDone m)

def run (actions : List Action) : Option System := actions.foldlM step sys

end System

/-! ## What an endpoint sends -/

/-- Requests and replies carry the nonce of their sender, which is valid, and a version. -/
def Message.Sound (m : Message) : Prop :=
  match m.header.messageType with
  | .startSessionInit => initiatorNonce m.header.sessionId ≠ kInvalidNonce ∧ m.body = [kVersion]
  | .startSessionReply => responderNonce m.header.sessionId ≠ kInvalidNonce ∧ m.body = [kVersion]
  | .terminateSession => True
  | _ => False

namespace Session

def lastSent (s : Session) : Option SessionHeader := s.framer.getLast?.map (·.header)

/-- What holds of an endpoint whose last processed message had the header `last`. -/
structure Settled (s : Session) (last : Option SessionHeader) : Prop where
  sound : ∀ m ∈ s.framer, m.Sound
  requested : s.state = .startSessionSent → s.lastSent.map (·.messageType) = some .startSessionInit
  established : s.state = .sessionEstablished →
    (last = some ⟨s.sessionId, .startSessionReply⟩ ∧
      s.lastSent.map (·.messageType) = some .startSessionInit) ∨
    (last.map (·.messageType) = some .startSessionInit ∧
      s.lastSent = some ⟨s.sessionId, .startSessionReply⟩)

variable {s : Session} {last : Option SessionHeader}

theorem localNonce_regenerateNonce (s : Session) :
    s.regenerateNonce.localNonce ≠ kInvalidNonce := by
  simp only [regenerateNonce]
  split
  · rename_i h
    rw [h]
    decide
  · assumption

namespace Settled

variable (h : s.Settled last)
include h

theorem sound_sent {m : Message} (hm : m.Sound) : ∀ m' ∈ s.framer ++ [m], m'.Sound :=
  forall_mem_append.mpr ⟨h.sound, forall_mem_singleton.mpr hm⟩

theorem requestSession (last' : Option SessionHeader) : s.requestSession.Settled last' := by
  constructor
  · refine h.sound_sent ?_
    simpa [Message.Sound, setSessionId] using s.localNonce_regenerateNonce
  · intro _
    simp [lastSent, Session.requestSession, sendInternal]
  · intro hst
    simp [Session.requestSession] at hst

theorem terminateSession : s.terminateSession.Settled last := by
  constructor
  · exact h.sound_sent trivial
  · intro hst
    simp [Session.terminateSession, sendInternal] at hst
  · intro hst
    simp [Session.terminateSession, sendInternal] at hst

/-- A reply establishes the endpoint as the responder of the request it answers. -/
theorem sendSessionStartReply {header : SessionHeader}
    (ht : header.messageType = .startSessionInit) :
    (s.sendSessionStartReply header).Settled (some header) := by
  constructor
  · refine h.sound_sent ?_
    simpa [Message.Sound, setSessionId] using s.localNonce_regenerateNonce
  · intro hst
    simp [Session.sendSessionStartReply, onSessionEstablishedMessage] at hst
  · intro _
    right
    simp [lastSent, Session.sendSessionStartReply, onSessionEstablishedMessage, sendInternal, ht]

/-- Only the state, the id and what was sent matter. -/
theorem notified (l : List MessageType) : { s with received := l }.Settled last :=
  ⟨h.sound, h.requested, h.established⟩

/-- An endpoint that is not established learns nothing from a message it ignores. -/
theorem ignore (hst : s.state ≠ .sessionEstablished)
    (last' : Option SessionHeader) : s.Settled last' :=
  ⟨h.sound, h.requested, fun he => absurd he hst⟩

theorem leave {st : SessionState} (hs : st ≠ .startSessionSent)
    (he : st ≠ .sessionEstablished) (last' : Option SessionHeader) :
    { s with state := st }.Settled last' :=
  ⟨h.sound, fun hst => absurd hst hs, fun hst => absurd hst he⟩

theorem processStartSessionInit (hm : m.Sound)
    (ht : m.header.messageType = .startSessionInit) :
    (s.processStartSessionInit m.header m.body).Settled (some m.header) := by
  simp only [Message.Sound, ht] at hm
  simp only [Session.processStartSessionInit, if_neg hm.1, hm.2, if_pos]
  have hreply := h.sendSessionStartReply ht
  cases hst : s.state with
  | reset | noSessionEstablished => exact hreply
  | startSessionSent =>
    have hne : s.state ≠ .sessionEstablished := by simp [hst]
    split_ifs
    · exact hreply
    · exact h.requestSession _
    · exact h.ignore hne _
  | sessionEstablished => exact hreply.notified _

theorem processStartSessionReply (hm : m.Sound)
    (ht : m.header.messageType = .startSessionReply) :
    (s.processStartSessionReply m.header m.body).Settled (some m.header) := by
  simp only [Message.Sound, ht] at hm
  simp only [Session.processStartSessionReply, if_neg hm.1, hm.2]
  cases hst : s.state with
  | reset | noSessionEstablished => exact h.ignore (by simp [hst]) _
  | startSessionSent =>
    dsimp only
    split_ifs with hn
    · refine ⟨h.sound, fun he => by simp [onSessionEstablishedMessage] at he, fun _ => ?_⟩
      -- the nonces of the header are its id, which the endpoint now holds
      have hid : mkSessionId s.localNonce (responderNonce m.header.sessionId) =
          m.header.sessionId := by
        rw [← hn.1, mkSessionId_nonces]
      refine .inl ⟨?_, h.requested hst⟩
      simp [onSessionEstablishedMessage, setSessionId, hid, ← ht]
    · exact h.ignore (by simp [hst]) _
  | sessionEstablished =>
    dsimp only
    rw [if_neg fun hr => hm.1 hr.2]
    exact h.leave (by simp) (by simp) _

/-- **Processing a message keeps the invariant, that message being the last one.** -/
theorem packetDone (hm : m.Sound) : (s.packetDone m).Settled (some m.header) := by
  unfold Session.packetDone
  cases ht : m.header.messageType with
  | startSessionInit => exact h.processStartSessionInit hm ht
  | startSessionReply => exact h.processStartSessionReply hm ht
  | terminateSession =>
    dsimp only
    split_ifs with hst
    · exact (h.leave (by simp) (by simp) _).notified _
    · exact h.ignore hst _
  | log | normal | other code => simp [Message.Sound, ht] at hm

end Settled

/-- Processing a message only adds to what was sent. -/
theorem framer_packetDone (s : Session) (m : Message) : s.framer <+: (s.packetDone m).framer := by
  have hreply : ∀ header, s.framer <+: (s.sendSessionStartReply header).framer :=
    fun _ => prefix_append _ _
  have hrequest : s.framer <+: s.requestSession.framer := prefix_append _ _
  unfold Session.packetDone Session.processStartSessionInit Session.processStartSessionReply
  grind [onSessionEstablishedMessage, onSessionTerminatedMessage, setSessionId]

end Session

/-! ## Runs -/

namespace System

open Session

/-- The header of the last message `side` processed. -/
def lastDelivered : Option SessionHeader :=
  ((sys.session !side).framer.take (sys.delivered side)).getLast?.map (·.header)

/-- The invariant of the system: each endpoint is settled, and no channel is read ahead. -/
structure Settled (sys : System) : Prop where
  endpoint : ∀ side, (sys.session side).Settled (sys.lastDelivered side)
  behind : ∀ side, sys.delivered side ≤ (sys.session !side).framer.length

theorem settled_initial (nonce : Bool → BitVec 8) : (initial nonce).Settled := by
  constructor
  · intro side
    have hnew : Session.Settled { Session.new with localNonce := nonce side }
        ((initial nonce).lastDelivered side) := by
      constructor <;> simp [Session.new]
    exact hnew.terminateSession
  · intro side
    exact Nat.zero_le _

variable {sys sys' : System}

/-- One side advances: its own last message is among those it has processed by now, and
what it sends stands behind everything the other side has processed. -/
theorem Settled.advance (h : sys.Settled) {side : Bool} {count : ℕ} {s : Session}
    (hs : (sys.session side).framer <+: s.framer)
    (hcount : sys.delivered side + count ≤ (sys.session !side).framer.length)
    (hinv : s.Settled (((sys.session !side).framer.take
      (sys.delivered side + count)).getLast?.map (·.header))) :
    (sys.advance side count s).Settled := by
  obtain ⟨sent, hs⟩ := hs
  have hle := h.behind (!side)
  have hother := h.endpoint (!side)
  simp only [lastDelivered, Bool.not_not] at hle hother
  constructor
  · intro side'
    by_cases hside : side' = side
    · subst hside
      simpa [lastDelivered, System.advance] using hinv
    · obtain rfl := Bool.eq_not.mpr hside
      simpa [lastDelivered, System.advance, ← hs, take_append_of_le_length hle] using hother
  · intro side'
    by_cases hside : side' = side
    · subst hside
      simpa [System.advance] using hcount
    · obtain rfl := Bool.eq_not.mpr hside
      simp [System.advance, ← hs]
      omega

theorem Settled.step (h : sys.Settled) {a : Action} (hstep : sys.step a = some sys') :
    sys'.Settled := by
  cases a with
  | startSession side =>
    simp only [System.step, startSession, Option.map_eq_some_iff] at hstep
    obtain ⟨s, hs, rfl⟩ := hstep
    split_ifs at hs
    rw [← Option.some.inj hs]
    exact h.advance (prefix_append _ _) (h.behind side) ((h.endpoint side).requestSession _)
  | terminateSession side =>
    rw [← Option.some.inj hstep]
    exact h.advance (prefix_append _ _) (h.behind side) (h.endpoint side).terminateSession
  | deliver side =>
    simp only [System.step, channel, Option.map_eq_some_iff, head?_drop] at hstep
    obtain ⟨m, hm, rfl⟩ := hstep
    obtain ⟨hlt, hm⟩ := List.getElem?_eq_some_iff.mp hm
    have hsound := (h.endpoint (!side)).sound m (hm ▸ getElem_mem hlt)
    refine h.advance (framer_packetDone _ m) hlt ?_
    simpa [take_succ_eq_append_getElem hlt, hm] using (h.endpoint side).packetDone hsound

theorem lastDelivered_eq_lastSent {side : Bool} (hempty : sys.channel side = []) :
    sys.lastDelivered side = (sys.session !side).lastSent := by
  rw [lastDelivered, lastSent, take_of_length_le (drop_eq_nil_iff.mp hempty)]

/-- **Whenever both channels are empty and both endpoints are established, the endpoints
hold the same session id**, for every pair of initial nonces and every interleaving of
calls and deliveries. -/
theorem sessionId_eq_of_established (nonce : Bool → BitVec 8) (actions : List Action)
    (hrun : (initial nonce).run actions = some sys) (hempty : ∀ side, sys.channel side = [])
    (hest : ∀ side, (sys.session side).state = .sessionEstablished) :
    (sys.session false).sessionId = (sys.session true).sessionId := by
  have hinv : sys.Settled := Lib.foldlM_invariant System.Settled
    (fun _ _ _ _ h hstep => h.step hstep) (settled_initial nonce) hrun
  have hf := (hinv.endpoint false).established (hest false)
  have ht := (hinv.endpoint true).established (hest true)
  rw [lastDelivered_eq_lastSent (hempty _)] at hf ht
  -- the responder's last message is the reply that established the initiator
  rcases hf with ⟨hf, hf'⟩ | ⟨hf, hf'⟩ <;> rcases ht with ⟨ht, ht'⟩ | ⟨ht, ht'⟩ <;>
    simp_all

/-- Both sides ask at once; the lower nonce wins and both end up in its session. -/
def crossing : Option System :=
  (initial fun side => if side then 3 else 1).run
    [.startSession false, .startSession true, .deliver false, .deliver true, .deliver false,
      .deliver true, .deliver false]

theorem sessionId_eq_crossing :
    ∃ sys, crossing = some sys ∧ (∀ side, (sys.session side).state = .sessionEstablished) ∧
      (sys.session false).sessionId = (sys.session true).sessionId := by
  have hend : crossing.any (fun sys => ∀ side, sys.channel side = [] ∧
      (sys.session side).state = .sessionEstablished) = true := by
    decide
  obtain ⟨sys, hsys, h⟩ := (Option.any_eq_true _ _).mp hend
  have h := of_decide_eq_true h
  exact ⟨sys, hsys, fun side => (h side).2,
    sessionId_eq_of_established _ _ hsys (fun side => (h side).1) (fun side => (h side).2)⟩

end System

end Pruner.Runtime.MicroRpc
