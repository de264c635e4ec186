import YCollab.Crdt.Doc
import YCollab.Protocol.Awareness

/-!
# The room

`internal/room/room.go` with the parts of `fanout.go`, `persist.go`, `versions.go`, `read.go` and
`write.go` that the room goroutine runs. One goroutine owns the document and handles one command
at a time, so the room is a state (`Room`) and a function that handles a command (`handle`).

While a command is handled the room is a `Handler`: the state, what was done to the connections,
and the results the calls of `Send` to come will have. A connection's outbound buffer may be full
at any moment, so those results are an input of the step, one for each call in the order they are
made.

Commands go to the writer and to the bus through channels the room goroutine fills; `jobs` and
`published` are everything it has put there. A walk over the map of connections goes in the order
they joined; the order of the source is arbitrary.
-/

namespace YCollab.Room

open Lib0 Crdt Protocol

/-- One client connection, as the room sees it. -/
structure Conn where
  /-- Identifies the connection. -/
  id : ℕ
  /-- Whether it may send document updates; decided when it was authorised. -/
  canWrite : Bool
  deriving DecidableEq

/-- What the payload of an envelope is. -/
inductive Kind where
  /-- A Yjs update. -/
  | update
  /-- An awareness payload. -/
  | awareness
  /-- An encoded state vector. -/
  | stateVector
  deriving DecidableEq

/-- A message between replicas. -/
structure Envelope where
  /-- The replica that published it. -/
  origin : ℕ
  kind : Kind
  payload : Bytes
  deriving DecidableEq

/-- Work for the persist goroutine. -/
inductive Job where
  /-- An update to append. -/
  | payload (update : Bytes)
  /-- A compaction with this snapshot. -/
  | snapshot (state : Bytes)
  /-- A version to record. -/
  | version (payload stateVector label : Bytes) (minAge : ℤ)
  deriving DecidableEq

/-- `Config`, the fields the room goroutine reads. Durations are nanoseconds. -/
structure Config where
  /-- Whether there is a store. -/
  store : Bool := false
  /-- Whether there is a bus. -/
  bus : Bool := false
  /-- Whether versions are kept, which needs a store. -/
  versions : Bool := false
  nodeID : ℕ := 0
  idleTimeout : ℤ := 300 * 10 ^ 9
  awarenessTTL : ℤ := defaultTimeout
  compactAfter : ℕ := 500
  antiEntropy : ℤ := 15 * 10 ^ 9
  versionInterval : ℤ := 0

/-- `CloseGoingAway`. -/
def closeGoingAway : ℕ := 1001

/-- `CloseProtocolError`. -/
def closeProtocolError : ℕ := 1002

/-- `ClosePolicyViolation`. -/
def closePolicyViolation : ℕ := 1008

/-- An update that carries nothing: no bytes, or no structs and no deletions. -/
def isEmptyUpdate (update : Bytes) : Bool := update.length = 0 || update = [0, 0]

end YCollab.Room

namespace YCollab

open Lib0 Crdt Protocol Room

/-- One document and the connections that are editing it. -/
structure Room where
  doc : Doc := .empty
  aw : Awareness := {}
  /-- The connections, each with the awareness clients it has published under. -/
  conns : List (Conn × List ℕ) := []
  /-- When the room last had no connections; nothing while somebody is connected. -/
  lastEmpty : Option ℤ := none
  /-- Updates queued since the last compaction. -/
  sinceSnapshot : ℕ := 0
  /-- The updates handed to `record`, oldest first. -/
  recorded : List Bytes := []
  /-- Everything handed to the persist goroutine, oldest first. -/
  jobs : List Job := []
  /-- Everything handed to the publisher, oldest first. -/
  published : List Envelope := []
  /-- When the state vector was last announced. -/
  lastAnnounce : Option ℤ := none
  /-- Whether anything has changed since the last attempt to take a version. -/
  versionDirty : Bool := false
  /-- When that attempt was. -/
  lastVersion : Option ℤ := none
  /-- The room has shut down. -/
  stopped : Bool := false

namespace Room

/-- `New`, of a room without a history. -/
def new (limits : Limits) (now : ℤ) : Room := { aw := { limits }, lastEmpty := some now }

/-- The clients `conn` has announced, if it is connected. -/
def clientsOf (r : Room) (conn : Conn) : Option (List ℕ) :=
  (r.conns.find? fun p => p.1 = conn).map Prod.snd

/-- What the room answers the caller of a command. -/
inductive Reply where
  /-- The update, the state vector and the number of connections, or why there are none. -/
  | snapshot (result : Except Err (Bytes × Bytes)) (clients : ℕ)
  /-- Whether a merge was applied. -/
  | merged (result : Option Err)
  /-- Whether a version was queued. -/
  | version (queued : Bool)
  /-- Whether the room evicted itself. -/
  | evicted (yes : Bool)

/-- The room while it handles a command. -/
structure Handler where
  room : Room
  /-- The results the next calls of `Send` will have; beyond them a call succeeds. -/
  outcomes : List Bool := []
  /-- The calls of `Send` so far: connection, frame and result. -/
  sends : List (Conn × Bytes × Bool) := []
  /-- The calls of `Close` so far: connection, code and reason. -/
  closes : List (Conn × ℕ × Bytes) := []
  /-- The answer to the command's caller. -/
  reply : Option Reply := none

namespace Handler

variable (cfg : Config) (now : ℤ) (h : Handler)

/-! ### Connections -/

/-- `conn.Send`. -/
def send (conn : Conn) (frame : Bytes) : Handler × Bool :=
  let ok := h.outcomes.headD true
  ({ h with outcomes := h.outcomes.tail, sends := h.sends ++ [(conn, frame, ok)] }, ok)

/-- `conn.Close`. -/
def close (conn : Conn) (code : ℕ) (reason : Bytes) : Handler :=
  { h with closes := h.closes ++ [(conn, code, reason)] }

/-- `publish`. -/
def publish (kind : Kind) (payload : Bytes) : Handler :=
  if cfg.bus then
    { h with room := { h.room with
      published := h.room.published ++ [⟨cfg.nodeID, kind, payload⟩] } }
  else h

/-- Send a frame to each of `conns`; the second result lists the connections it failed for. -/
def sendEach (frame : Bytes) : Handler → List Conn → Handler × List Conn
  | h, [] => (h, [])
  | h, conn :: conns =>
    let (h, ok) := h.send conn frame
    let (h, slow) := sendEach frame h conns
    (h, if ok then slow else conn :: slow)

/-- Everybody in the room but `except`. -/
def others (except : Option Conn) : List Conn :=
  (h.room.conns.map Prod.fst).filter fun conn => some conn ≠ except

/-- `broadcast`, for a given way to make a connection leave: those that could not take the frame
are dropped after everybody was sent it. -/
def broadcastWith (leave : Handler → Conn → Handler) (frame : Bytes) (except : Option Conn) :
    Handler :=
  let (h, slow) := sendEach frame h (h.others except)
  slow.foldl (fun h conn => (leave h conn).close conn closePolicyViolation
    (text "outbound buffer full")) h

/-- Take `conn` out of the table. -/
def forgetConn (conn : Conn) : Handler :=
  let conns := h.room.conns.filter fun p => p.1 ≠ conn
  { h with room := { h.room with
    conns, lastEmpty := if conns.isEmpty then some now else h.room.lastEmpty } }

/-- Retract the cursors of `clients`. -/
def retract (leave : Handler → Conn → Handler) (clients : List ℕ) : Handler :=
  match h.room.aw.removeClients clients now with
  | (aw, some (.ok payload)) =>
    (({ h with room := { h.room with aw } } : Handler).broadcastWith leave
      (writeAwareness payload) none).publish cfg .awareness payload
  | (aw, _) => { h with room := { h.room with aw } }

/-- The recursion of `leave`: the retraction is broadcast, and who cannot take it leaves in turn.
Every turn has one connection less, so the fuel is their number. -/
def leaveLoop : ℕ → Handler → Conn → Handler
  | 0, h, _ => h
  | fuel + 1, h, conn =>
    match h.room.clientsOf conn with
    | none => h
    | some [] => h.forgetConn now conn
    | some clients => (h.forgetConn now conn).retract cfg now (leaveLoop fuel) clients

/-- `leave`. -/
def leave (conn : Conn) : Handler := leaveLoop cfg now h.room.conns.length h conn

/-- `broadcast`. -/
def broadcast (frame : Bytes) (except : Option Conn) : Handler :=
  h.broadcastWith (leave cfg now) frame except

/-- `drop`. -/
def drop (conn : Conn) (code : ℕ) (reason : Bytes) : Handler :=
  (h.leave cfg now conn).close conn code reason

/-- `deliver`. -/
def deliver (conn : Conn) (frame : Bytes) : Handler × Bool :=
  let (h, ok) := h.send conn frame
  if ok then (h, true)
  else (h.drop cfg now conn closePolicyViolation (text "outbound buffer full"), false)

/-- `join`. -/
def join (conn : Conn) : Handler :=
  if (h.room.clientsOf conn).isSome then h
  else { h with room := { h.room with conns := h.room.conns ++ [(conn, [])], lastEmpty := none } }

/-! ### The writer -/

/-- `requestCompaction`: the document goes to the writer as a snapshot. -/
def requestCompaction : Handler :=
  if cfg.store then
    match h.room.doc.encodeStateAsUpdate SortedMap.empty with
    | .ok snapshot => { h with room := { h.room with
        jobs := h.room.jobs ++ [.snapshot snapshot], sinceSnapshot := 0 } }
    | .error _ => h
  else h

/-- `record`. -/
def record (update : Bytes) : Handler :=
  let h := { h with room := { h.room with recorded := h.room.recorded ++ [update] } }
  if cfg.store then
    let h := { h with room := { h.room with
      jobs := h.room.jobs ++ [.payload update], sinceSnapshot := h.room.sinceSnapshot + 1 } }
    if h.room.sinceSnapshot ≥ cfg.compactAfter then h.requestCompaction cfg else h
  else h

/-- `queueVersion`, and whether the version was queued. -/
def queueVersion (label : Bytes) (minAge : ℤ) : Handler × Bool :=
  match h.room.doc.encodeStateAsUpdate SortedMap.empty, h.room.doc.encodeStateVector with
  | .ok payload, .ok sv =>
    if cfg.store then
      ({ h with room := { h.room with
        jobs := h.room.jobs ++ [.version payload sv label minAge] } }, true)
    else (h, false)
  | _, _ => (h, false)

/-! ### Frames -/

/-- `sendAll`. -/
def sendAll (conn : Conn) : Handler :=
  match h.room.aw.encodeAll with
  | .ok payload => (h.deliver cfg now conn (writeAwareness payload)).1
  | .error _ => h

/-- `syncStep1`: what the client is missing, then what we have, then the cursors. -/
def syncStep1 (conn : Conn) (sv : Bytes) : Handler :=
  match h.room.doc.encodeDiff sv with
  | .error _ => h.drop cfg now conn closeProtocolError (text "bad state vector")
  | .ok diff =>
    match h.deliver cfg now conn (writeSyncStep2 diff) with
    | (h, false) => h
    | (h, true) =>
      match h.room.doc.encodeStateVector with
      | .error _ => h
      | .ok ours =>
        match h.deliver cfg now conn (writeSyncStep1 ours) with
        | (h, false) => h
        | (h, true) => if h.room.aw.len > 0 then h.sendAll cfg now conn else h

/-- `update`: an update of a connection that may not write is refused, unless it carries
nothing; any other is applied, handed to the writer, relayed and published. -/
def update (conn : Conn) (update : Bytes) : Handler :=
  if conn.canWrite = false then
    if isEmptyUpdate update then h
    else
      (h.send conn (writePermissionDenied
        (text "read-only: this token does not grant write access"))).1.drop cfg now conn
          closePolicyViolation (text "read-only")
  else
    match h.room.doc.applyUpdate update with
    | .error _ => h.drop cfg now conn closeProtocolError (text "bad update")
    | .ok doc =>
      let h := ({ h with room := { h.room with doc } } : Handler).record cfg update
      let h := { h with room := { h.room with versionDirty := true } }
      (h.broadcast cfg now (writeUpdate update) (some conn)).publish cfg .update update

/-- The clients a connection has announced, with `ids` among them. -/
def announced (clients ids : List ℕ) : List ℕ :=
  ids.foldl (fun l id => if id ∈ l then l else l ++ [id]) clients

/-- `awareness`. -/
def awareness (conn : Conn) (payload : Bytes) : Handler :=
  match h.room.aw.applyUpdate payload now with
  | (aw, _, some err) =>
    let h := { h with room := { h.room with aw } }
    match err.refusal with
    | some reason =>
      (h.send conn (writePermissionDenied reason)).1.drop cfg now conn closePolicyViolation
        (text "awareness limit")
    | none => h.drop cfg now conn closeProtocolError (text "bad awareness update")
  | (aw, [], none) => { h with room := { h.room with aw } }
  | (aw, changed, none) =>
    let conns := h.room.conns.map fun p =>
      if p.1 = conn then (p.1, announced p.2 changed) else p
    let h := { h with room := { h.room with aw, conns } }
    match h.room.aw.encode changed with
    | .error _ => h
    | .ok out =>
      (h.broadcast cfg now (writeAwareness out) (some conn)).publish cfg .awareness out

/-- `frame`. -/
def frame (conn : Conn) (frame : Bytes) : Handler :=
  match h.room.clientsOf conn with
  | none => h
  | some _ =>
    match decode frame with
    | .error _ => h.drop cfg now conn closeProtocolError (text "undecodable message")
    | .ok (.syncStep1 sv) => h.syncStep1 cfg now conn sv
    | .ok (.syncStep2 update) => h.update cfg now conn update
    | .ok (.update update) => h.update cfg now conn update
    | .ok (.awareness payload) => h.awareness cfg now conn payload
    | .ok .queryAwareness => h.sendAll cfg now conn
    | .ok (.permissionDenied _) => h

/-! ### Ticks, callers and the bus -/

/-- `announce`: our state vector, if somebody is connected and it is time. -/
def announce : Handler :=
  if cfg.bus = false ∨ h.room.conns = [] then h
  else if h.room.lastAnnounce.any fun last => now - last < cfg.antiEntropy then h
  else
    match h.room.doc.encodeStateVector with
    | .error _ => h
    | .ok sv =>
      ({ h with room := { h.room with lastAnnounce := some now } } : Handler).publish cfg
        .stateVector sv

/-- `versionTick`. -/
def versionTick : Handler :=
  if cfg.versions = false ∨ cfg.versionInterval ≤ 0 ∨ h.room.versionDirty = false then h
  else if h.room.lastVersion.any fun last => now - last < cfg.versionInterval then h
  else
    (({ h with room := { h.room with
      lastVersion := some now, versionDirty := false } } : Handler).queueVersion cfg []
        cfg.versionInterval).1

/-- `stop`, up to the drain of the mailbox: every connection is closed, and the document goes to
the writer for the last time. -/
def stop (code : ℕ) (reason : Bytes) : Handler :=
  let h := h.room.conns.foldl (fun h p => h.close p.1 code reason) h
  let h := ({ h with room := { h.room with conns := [] } } : Handler).requestCompaction cfg
  { h with room := { h.room with stopped := true } }

/-- `evict`. -/
def evict : Handler := h.stop cfg closeGoingAway (text "room evicted")

/-- The part of `tick` that removes the cursors nobody has renewed. -/
def sweepAwareness : Handler :=
  match h.room.aw.sweep now cfg.awarenessTTL with
  | (aw, some (.ok payload)) =>
    ({ h with room := { h.room with aw } } : Handler).broadcast cfg now
      (writeAwareness payload) none
  | (aw, _) => { h with room := { h.room with aw } }

/-- `tick`, and whether the room evicted itself. -/
def tick : Handler × Bool :=
  let h := ((h.sweepAwareness cfg now).announce cfg now).versionTick cfg now
  if h.room.conns ≠ [] then (h, false)
  else
    match h.room.lastEmpty with
    | none => (h, false)
    | some since => if now - since < cfg.idleTimeout then (h, false) else (h.evict cfg, true)

/-- `read` with `encodeSnapshot`. -/
def read (sv : Bytes) : Handler :=
  let result := do
    let update ←
      if sv.length = 0 then h.room.doc.encodeStateAsUpdate SortedMap.empty
      else h.room.doc.encodeDiff sv
    let ours ← h.room.doc.encodeStateVector
    pure (update, ours)
  { h with reply := some (.snapshot result h.room.conns.length) }

/-- `merge`. -/
def merge (update : Bytes) : Handler :=
  match h.room.doc.applyUpdate update with
  | .error err => { h with reply := some (.merged (some err)) }
  | .ok doc =>
    let h := ({ h with room := { h.room with doc } } : Handler).record cfg update
    let h := { h with room := { h.room with versionDirty := true } }
    let h := (h.broadcast cfg now (writeUpdate update) none).publish cfg .update update
    { h with reply := some (.merged none) }

/-- `takeVersion`. -/
def takeVersion (label : Bytes) : Handler :=
  if cfg.versions = false then { h with reply := some (.version false) }
  else
    let h := { h with room := { h.room with versionDirty := false, lastVersion := some now } }
    { (h.queueVersion cfg label 0).1 with reply := some (.version true) }

/-- `remoteUpdate`. -/
def remoteUpdate (update : Bytes) : Handler :=
  match h.room.doc.applyUpdate update with
  | .error _ => h
  | .ok doc =>
    ({ h with room := { h.room with doc, versionDirty := true } } : Handler).broadcast cfg now
      (writeUpdate update) none

/-- `remoteAwareness`. -/
def remoteAwareness (payload : Bytes) : Handler :=
  match h.room.aw.applyUpdate payload now with
  | (aw, [], none) => { h with room := { h.room with aw } }
  | (aw, changed, none) =>
    let h := { h with room := { h.room with aw } }
    match h.room.aw.encode changed with
    | .error _ => h
    | .ok out => h.broadcast cfg now (writeAwareness out) none
  | (aw, _, some _) => { h with room := { h.room with aw } }

/-- `answerStateVector`. -/
def answerStateVector (sv : Bytes) : Handler :=
  match h.room.doc.encodeDiff sv with
  | .error _ => h
  | .ok diff => if isEmptyUpdate diff then h else h.publish cfg .update diff

/-- `remoteEnvelope`. -/
def remoteEnvelope (env : Envelope) : Handler :=
  match env.kind with
  | .update => h.remoteUpdate cfg now env.payload
  | .awareness => h.remoteAwareness cfg now env.payload
  | .stateVector => h.answerStateVector cfg env.payload

end Handler

/-! ### Commands -/

/-- A command in the mailbox. -/
inductive Command where
  | join (conn : Conn)
  | leave (conn : Conn)
  | frame (conn : Conn) (frame : Bytes)
  | tick
  | read (sv : Bytes)
  | merge (update : Bytes)
  | version (label : Bytes)
  | evict
  deriving DecidableEq

/-- `handle`, and whether the room evicted itself. -/
def Handler.handle (cfg : Config) (now : ℤ) (h : Handler) : Command → Handler × Bool
  | .join conn => (h.join conn, false)
  | .leave conn => (h.leave cfg now conn, false)
  | .frame conn frame => (h.frame cfg now conn frame, false)
  | .tick => h.tick cfg now
  | .read sv => (h.read sv, false)
  | .merge update => (h.merge cfg now update, false)
  | .version label => (h.takeVersion cfg now label, false)
  | .evict =>
    if h.room.conns ≠ [] then ({ h with reply := some (.evicted false) }, false)
    else ({ h.evict cfg with reply := some (.evicted true) }, true)

/-- What the run loop selects. -/
inductive Event where
  /-- A command from the mailbox, or a tick. -/
  | command (c : Command)
  /-- An envelope of another replica. -/
  | remote (env : Envelope)
  deriving DecidableEq

/-- One turn of the run loop: what was selected, the time, and the results of the calls of `Send`
it makes. -/
structure Input where
  event : Event
  now : ℤ := 0
  outcomes : List Bool := []

/-- One turn of the run loop, with what it did to the connections. -/
def turn (cfg : Config) (r : Room) (i : Input) : Handler :=
  match i.event with
  | .command c => (({ room := r, outcomes := i.outcomes } : Handler).handle cfg i.now c).1
  | .remote env => ({ room := r, outcomes := i.outcomes } : Handler).remoteEnvelope cfg i.now env

/-- The room after a sequence of turns. A room that has stopped takes no further turn. -/
def run (cfg : Config) (r : Room) (inputs : List Input) : Room :=
  inputs.foldl (fun r i => if r.stopped then r else (r.turn cfg i).room) r

end Room

end YCollab
