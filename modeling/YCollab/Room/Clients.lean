import YCollab.Crdt.Replica
import YCollab.Room.Relay

/-!
# Clients that follow a room

A room, and the documents of the clients behind its connections. A client sends its state vector,
applies every difference and update it is sent, edits its own document and sends its edits, in any
order; frames are under way for as long as they like, and no send fails.

A client is up to date when it was told everything the room was told (`World.Synced`): it received
the difference for its state vector, and every update from then on. But the difference carries only
what the room has integrated, and an update that the room holds back is not relayed again when what
it was waiting for arrives. So `clients_keep_up` needs that the room holds nothing back when it
answers a state vector, and `client_left_behind` is a run in which it does.
-/

namespace YCollab.Room

open Lib0 Crdt Protocol

/-- The client behind a connection. -/
structure Client where
  doc : Doc := .empty
  /-- The updates the client made itself. -/
  edits : List Bytes := []
  /-- The frames on their way to the client, oldest first. -/
  inbox : List Bytes := []
  /-- The frames on their way to the room, oldest first. -/
  outbox : List Bytes := []

/-- A room and its clients. -/
structure World where
  room : Room
  clients : Conn → Client := fun _ => {}
  /-- The client is connected, and the room has answered its state vector. -/
  greeted : Conn → Bool := fun _ => false

namespace World

/-- What happens next. -/
inductive Step where
  /-- The room handles that a connection joins. -/
  | join (now : ℤ) (conn : Conn)
  /-- The room handles that a connection leaves. -/
  | leave (now : ℤ) (conn : Conn)
  /-- The room handles the next frame of a connection. -/
  | handle (now : ℤ) (conn : Conn)
  /-- A client edits its document. -/
  | edit (conn : Conn) (update : Bytes)
  /-- A client sends one of its edits. -/
  | post (conn : Conn) (update : Bytes)
  /-- A client sends its state vector. -/
  | hello (conn : Conn)
  /-- A client sends a frame that is not about the document. -/
  | other (conn : Conn) (frame : Bytes)
  /-- A client takes the next frame it was sent; it may answer a state vector. -/
  | receive (conn : Conn) (answer : Bool)

/-- The frames that were sent to a connection. -/
def framesTo (conn : Conn) (sends : List (Conn × Bytes × Bool)) : List Bytes :=
  (sends.filter fun s => s.1 = conn).map fun s => s.2.1

/-- The command is the state vector of `conn`. -/
def isHello (conn : Conn) : Command → Bool
  | .frame c frame =>
    c = conn && match decode frame with
      | .ok (.syncStep1 _) => true
      | _ => false
  | _ => false

variable (cfg : Config)

/-- The room handles a command, and what it sends is under way. -/
def turn (w : World) (now : ℤ) (c : Command) : World :=
  let h := w.room.turn cfg ⟨.command c, now, []⟩
  { room := h.room
    clients := fun conn =>
      { w.clients conn with inbox := (w.clients conn).inbox ++ framesTo conn h.sends }
    greeted := fun conn => (w.greeted conn || isHello conn c) && (h.room.clientsOf conn).isSome }

/-- Something happens to one client. -/
def onClient (w : World) (conn : Conn) (f : Client → Client) : World :=
  { w with clients := Function.update w.clients conn (f (w.clients conn)) }

end World

namespace Client

/-- A frame is sent to the room. -/
def push (c : Client) (frame : Bytes) : Client := { c with outbox := c.outbox ++ [frame] }

/-- The client makes an update. -/
def edit (c : Client) (update : Bytes) : Client :=
  { c with doc := c.doc.receive update, edits := c.edits ++ [update] }

/-- It sends an update that it has made. -/
def post (c : Client) (update : Bytes) : Client :=
  if update ∈ c.edits then c.push (writeUpdate update) else c

/-- It sends its state vector. -/
def hello (c : Client) : Client :=
  match c.doc.encodeStateVector with
  | .ok sv => c.push (writeSyncStep1 sv)
  | .error _ => c

/-- It sends a frame that is no sync message. -/
def other (c : Client) (frame : Bytes) : Client :=
  match decode frame with
  | .ok m => if m.isSync then c else c.push frame
  | .error _ => c.push frame

/-- What the client does with a message. -/
def take (c : Client) (answer : Bool) : Message → Client
  | .syncStep1 sv =>
    if answer then
      match c.doc.encodeDiff sv with
      | .ok diff => c.push (writeSyncStep2 diff)
      | .error _ => c
    else c
  | .syncStep2 update => { c with doc := c.doc.receive update }
  | .update update => { c with doc := c.doc.receive update }
  | _ => c

/-- It reads the next frame; `answer` if it answers a SyncStep1. -/
def receive (c : Client) (answer : Bool) : Client :=
  match c.inbox with
  | [] => c
  | frame :: rest =>
    match decode frame with
    | .ok m => { c with inbox := rest }.take answer m
    | .error _ => { c with inbox := rest }

end Client

namespace World

variable (cfg : Config)

/-- One step. -/
def step (w : World) : Step → World
  | .join now conn => w.turn cfg now (.join conn)
  | .leave now conn => w.turn cfg now (.leave conn)
  | .handle now conn =>
    match (w.clients conn).outbox with
    | [] => w
    | frame :: rest =>
      (w.onClient conn fun c => { c with outbox := rest }).turn cfg now (.frame conn frame)
  | .edit conn update => w.onClient conn (·.edit update)
  | .post conn update => w.onClient conn (·.post update)
  | .hello conn => w.onClient conn Client.hello
  | .other conn frame => w.onClient conn (·.other frame)
  | .receive conn answer => w.onClient conn (·.receive answer)

/-- The world after a sequence of steps. -/
def run (w : World) (steps : List Step) : World := steps.foldl (step cfg) w

/-! ### The condition -/

/-- Edits are updates of the history, and the room holds nothing back when it answers a state vector,
with a difference that can be written. -/
def Allowed (hist : List Bytes) (w : World) : Step → Prop
  | .edit _ update => update ∈ hist
  | .handle _ conn => ∀ frame sv, (w.clients conn).outbox.head? = some frame →
      decode frame = .ok (.syncStep1 sv) → (w.room.clientsOf conn).isSome →
      w.room.doc.pending = [] ∧
        ∀ diff, w.room.doc.encodeDiff sv = .ok diff → diff.length ≤ maxSafeInteger
  | _ => True

/-- Every step of a run is `Allowed`. -/
def InOrder (hist : List Bytes) (w : World) : List Step → Prop
  | [] => True
  | st :: steps => w.Allowed hist st ∧ InOrder hist (w.step cfg st) steps

end World

/-! ### What clients and room know of each other -/

section Synced

variable {H : Shape} {B T T' : ID → Prop} {c : Client} {m : Message} {frame : Bytes}

/-- The state vector can be read, and cuts no pair. -/
def GoodVector (H : Shape) (sv : Bytes) (v : StateVector) : Prop :=
  decodeStateVector sv = .ok v ∧ ∀ c, ¬H.low ⟨c, v.get c⟩

/-- A message that a client may be sent. -/
def Incoming (H : Shape) (B : ID → Prop) : Message → Prop
  | .syncStep1 sv => ∃ v, GoodVector H sv v
  | .syncStep2 b => ∃ u, decodeUpdate b = .ok u ∧ u.Good H B
  | .update b => ∃ u, decodeUpdate b = .ok u ∧ u.Good H B
  | _ => True

/-- The units of the update are known, and it can be sent. -/
def Own (H : Shape) (B T : ID → Prop) (b : Bytes) : Prop :=
  b.length ≤ maxSafeInteger ∧ ∃ u, decodeUpdate b = .ok u ∧ u.Good H B ∧ ∀ x, u.Units x → T x

/-- A message from a client that was told `T`. -/
def Outgoing (H : Shape) (B T : ID → Prop) : Message → Prop
  | .syncStep1 sv => ∃ v, GoodVector H sv v ∧ ∀ x : ID, x.clock < v.get x.client → T x
  | .syncStep2 b => Own H B T b
  | .update b => Own H B T b
  | _ => True

/-- What holds of a client that was told `T`. -/
structure Client.Follows (H : Shape) (B T : ID → Prop) (c : Client) : Prop where
  replica : Replica H B T c.doc
  edits : ∀ b ∈ c.edits, Own H B T b
  outbox : ∀ f ∈ c.outbox, ∀ m, decode f = .ok m → Outgoing H B T m
  inbox : ∀ f ∈ c.inbox, ∀ m, decode f = .ok m → Incoming H B m

/-- The frame carries the unit. -/
def Brings (frame : Bytes) (x : ID) : Prop :=
  ∃ b u, (decode frame = .ok (.syncStep2 b) ∨ decode frame = .ok (.update b)) ∧
    decodeUpdate b = .ok u ∧ u.Units x

/-- Room and clients were told units of one history, and everybody who is greeted was told, or is
about to be, what the room was told. -/
structure World.Synced (H : Shape) (B : ID → Prop) (w : World) (R : ID → Prop)
    (T : Conn → ID → Prop) : Prop where
  room : Replica H B R w.room.doc
  clients : ∀ conn, (w.clients conn).Follows H B (T conn)
  greeted : ∀ conn, w.greeted conn = true → (w.room.clientsOf conn).isSome ∧
    ∀ x, R x → T conn x ∨ ∃ f ∈ (w.clients conn).inbox, Brings f x

theorem Own.mono (h : Own H B T frame) (hT : ∀ x, T x → T' x) : Own H B T' frame := by
  obtain ⟨hlen, u, hu, hgood, hunits⟩ := h
  exact ⟨hlen, u, hu, hgood, fun x hx => hT x (hunits x hx)⟩

theorem Outgoing.mono (h : Outgoing H B T m) (hT : ∀ x, T x → T' x) : Outgoing H B T' m := by
  cases m with
  | syncStep1 sv =>
    obtain ⟨v, hv, hknown⟩ := h
    exact ⟨v, hv, fun x hx => hT x (hknown x hx)⟩
  | syncStep2 b => exact Own.mono h hT
  | update b => exact Own.mono h hT
  | _ => trivial

theorem Incoming.of_quiet (hq : Quiet frame) (hm : decode frame = .ok m) : Incoming H B m := by
  have hs := hq m hm
  cases m with
  | syncStep1 sv => cases hs
  | syncStep2 b => cases hs
  | update b => cases hs
  | _ => trivial

theorem Outgoing.of_not_sync (hs : m.isSync = false) : Outgoing H B T m := by
  cases m with
  | syncStep1 sv => cases hs
  | syncStep2 b => cases hs
  | update b => cases hs
  | _ => trivial

/-! ### Steps of a client -/

/-- Whatever `c` was told, `c'` was told as well, or is about to be. -/
def Client.Advances (H : Shape) (B : ID → Prop) (c c' : Client) : Prop :=
  ∀ T, c.Follows H B T → ∃ T', c'.Follows H B T' ∧
    ∀ x, (T x ∨ ∃ f ∈ c.inbox, Brings f x) → T' x ∨ ∃ f ∈ c'.inbox, Brings f x

namespace Client

theorem Advances.refl (c : Client) : Advances H B c c := fun T h => ⟨T, h, fun _ hx => hx⟩

theorem Advances.push (hf : ∀ T, c.Follows H B T → ∀ m, decode frame = .ok m → Outgoing H B T m) :
    Advances H B c (c.push frame) := by
  intro T h
  refine ⟨T, ⟨h.replica, h.edits, fun f hmem m hm => ?_, h.inbox⟩, fun _ hx => hx⟩
  rcases List.mem_append.1 hmem with hmem | hmem
  · exact h.outbox f hmem m hm
  · rw [List.mem_singleton.1 hmem] at hm
    exact hf T h m hm

theorem Follows.receive (h : c.Follows H B T) (hH : H.Grounded) {b : Bytes} {u : Update}
    (hb : decodeUpdate b = .ok u) (hu : u.Good H B) :
    Follows H B (fun x => T x ∨ u.Units x) { c with doc := c.doc.receive b } where
  replica := h.replica.receive hH hb hu
  edits b hb := (h.edits b hb).mono fun _ hx => .inl hx
  outbox f hf m hm := (h.outbox f hf m hm).mono fun _ hx => .inl hx
  inbox := h.inbox

theorem advances_edit (hH : H.Grounded) {b : Bytes} {u : Update} (hlen : b.length ≤ maxSafeInteger)
    (hb : decodeUpdate b = .ok u) (hu : u.Good H B) : Advances H B c (c.edit b) := by
  intro T h
  have h' := h.receive hH hb hu
  refine ⟨_, ⟨h'.replica, fun b' hb' => ?_, h'.outbox, h'.inbox⟩, fun x hx => ?_⟩
  · rcases List.mem_append.1 hb' with hb' | hb'
    · exact h'.edits b' hb'
    · rw [List.mem_singleton.1 hb']
      exact ⟨hlen, u, hb, hu, fun x hx => .inr hx⟩
  · exact hx.imp_left .inl

theorem advances_post (b : Bytes) : Advances H B c (c.post b) := by
  unfold post
  split
  next hmem =>
    refine .push fun T h m hm => ?_
    have hown := h.edits b hmem
    obtain rfl : Message.update b = m :=
      Except.ok.inj ((decode_writeUpdate hown.1).symm.trans hm)
    exact hown
  next => exact .refl c

theorem advances_hello (hH : H.Lawful) (hB : Small B) (hmem : ∀ x, H.mem x → B x) :
    Advances H B c c.hello := by
  unfold hello
  split
  next sv hsv =>
    refine .push fun T h m hm => ?_
    obtain ⟨b, hb, hdec⟩ := h.replica.stateVector hB hmem
    obtain rfl : b = sv := Except.ok.inj (hb.symm.trans hsv)
    obtain rfl : Message.syncStep1 b = m := Except.ok.inj (syncMessage_of_decode (by decide) hm)
    obtain ⟨w, ht⟩ := h.replica.told
    refine ⟨c.doc.stateVector, ⟨hdec, fun k => ?_⟩, fun x hx => ht.has ?_⟩
    · rw [Doc.stateVector_get]
      exact h.replica.not_low_state hH k
    · rwa [Doc.stateVector_get] at hx
  next => exact .refl c

theorem advances_other (frame : Bytes) : Advances H B c (c.other frame) := by
  unfold other
  split
  next m hm =>
    split
    · exact .refl c
    next hs =>
      refine .push fun T _ m' hm' => Outgoing.of_not_sync ?_
      obtain rfl : m = m' := Except.ok.inj (hm.symm.trans hm')
      exact Bool.eq_false_iff.2 hs
  next hm =>
    refine .push fun T _ m' hm' => ?_
    rw [hm] at hm'
    cases hm'

/-- A message that carries an update tells the client its units. -/
theorem advances_take_update (hH : H.Grounded) {rest : List Bytes} {b : Bytes}
    (hin : c.inbox = frame :: rest)
    (hb : decode frame = .ok (.syncStep2 b) ∨ decode frame = .ok (.update b)) :
    Advances H B c { c with inbox := rest, doc := c.doc.receive b } := by
  intro T h
  obtain ⟨u, hu, hgood⟩ : ∃ u, decodeUpdate b = .ok u ∧ u.Good H B := by
    have hfirst := h.inbox frame (by simp [hin])
    exact hb.elim (hfirst _) (hfirst _)
  have h' := h.receive hH hu hgood
  refine ⟨_, ⟨h'.replica, h'.edits, h'.outbox, fun f hf => h.inbox f (by simp [hin, hf])⟩, ?_⟩
  rintro x (hx | ⟨f, hf, hx⟩)
  · exact .inl (.inl hx)
  · rw [hin] at hf
    rcases List.mem_cons.1 hf with rfl | hf
    · obtain ⟨b', u', hb', hu', hx⟩ := hx
      have heq : b' = b := by
        rcases hb with hb | hb <;> rcases hb' with hb' | hb' <;> rw [hb] at hb' <;> simpa using hb'.symm
      rw [heq, hu] at hu'
      rw [← Except.ok.inj hu'] at hx
      exact .inl (.inr hx)
    · exact .inr ⟨f, hf, hx⟩

theorem advances_drop {rest : List Bytes} (hin : c.inbox = frame :: rest)
    (hb : ∀ b, decode frame ≠ .ok (.syncStep2 b) ∧ decode frame ≠ .ok (.update b)) :
    Advances H B c { c with inbox := rest } := by
  intro T h
  refine ⟨T, ⟨h.replica, h.edits, h.outbox, fun f hf => h.inbox f (by simp [hin, hf])⟩, ?_⟩
  rintro x (hx | ⟨f, hf, hx⟩)
  · exact .inl hx
  · rw [hin] at hf
    rcases List.mem_cons.1 hf with rfl | hf
    · obtain ⟨b, u, hdec, -⟩ := hx
      exact (hdec.elim (hb b).1 (hb b).2).elim
    · exact .inr ⟨f, hf, hx⟩

theorem advances_take_vector (hH : H.Lawful) (hB : Small B) (hmem : ∀ x, H.mem x → B x) {sv : Bytes}
    {v : StateVector} (hv : GoodVector H sv v) (answer : Bool) :
    Advances H B c (c.take answer (.syncStep1 sv)) := by
  simp only [take]
  split
  · split
    next diff hdiff =>
      refine .push fun T h m hm => ?_
      obtain ⟨b, u, hb, hu, hgood, -, hunits⟩ := h.replica.pass hH hB hmem hv.2
      rw [Doc.encodeDiff, hv.1] at hdiff
      obtain rfl : b = diff := Except.ok.inj (hb.symm.trans hdiff)
      obtain rfl : Message.syncStep2 b = m := Except.ok.inj (syncMessage_of_decode (by decide) hm)
      obtain ⟨w, ht⟩ := h.replica.told
      exact ⟨length_of_decode (by decide) hm, u, hu, hgood,
        fun x hx => ht.has ((hunits x).1 hx).1⟩
    next => exact .refl c
  · exact .refl c

theorem Advances.trans {c' c'' : Client} (h : Advances H B c c') (h' : Advances H B c' c'') :
    Advances H B c c'' := by
  intro T hT
  obtain ⟨T₁, h₁, hx₁⟩ := h T hT
  obtain ⟨T₂, h₂, hx₂⟩ := h' T₁ h₁
  exact ⟨T₂, h₂, fun x hx => hx₂ x (hx₁ x hx)⟩

theorem advances_receive (hH : H.Grounded) (hB : Small B) (hmem : ∀ x, H.mem x → B x)
    (answer : Bool) : Advances H B c (c.receive answer) := by
  unfold receive
  split
  · exact .refl c
  next frame rest hin =>
    split
    next m hm =>
      cases m with
      | syncStep2 b => exact advances_take_update hH hin (.inl hm)
      | update b => exact advances_take_update hH hin (.inr hm)
      | syncStep1 sv =>
        intro T h
        obtain ⟨v, hv⟩ := h.inbox frame (by simp [hin]) _ hm
        exact ((advances_drop hin (by simp [hm])).trans
          (advances_take_vector hH.toLawful hB hmem hv answer)) T h
      | awareness payload => exact advances_drop hin (by simp [hm])
      | queryAwareness => exact advances_drop hin (by simp [hm])
      | permissionDenied reason => exact advances_drop hin (by simp [hm])
    next x hx => exact advances_drop hin (by simp [hx])

end Client

/-! ### Steps of the room -/

namespace World

variable {cfg : Config} {w : World} {R : ID → Prop} {T : Conn → ID → Prop} {conn : Conn} {now : ℤ}
  {cmd : Command}

theorem Synced.onClient {f : Client → Client} (h : w.Synced H B R T)
    (hf : Client.Advances H B (w.clients conn) (f (w.clients conn))) :
    ∃ T', (w.onClient conn f).Synced H B R T' := by
  obtain ⟨T', hT', hx⟩ := hf (T conn) (h.clients conn)
  refine ⟨Function.update T conn T', h.room, fun conn' => ?_, fun conn' hg => ?_⟩
  · by_cases heq : conn' = conn
    · subst heq
      simpa [World.onClient] using hT'
    · simpa [World.onClient, heq] using h.clients conn'
  · obtain ⟨hin, hknown⟩ := h.greeted conn' hg
    refine ⟨hin, fun x hR => ?_⟩
    by_cases heq : conn' = conn
    · subst heq
      simpa [World.onClient] using hx x (hknown x hR)
    · simpa [World.onClient, heq] using hknown x hR

theorem Synced.pop (h : w.Synced H B R T) {frame : Bytes} {rest : List Bytes}
    (hout : (w.clients conn).outbox = frame :: rest) :
    (w.onClient conn fun c => { c with outbox := rest }).Synced H B R T := by
  refine ⟨h.room, fun conn' => ?_, fun conn' hg => ?_⟩
  · have hc := h.clients conn'
    by_cases heq : conn' = conn
    · subst heq
      simp only [World.onClient, Function.update_self]
      exact ⟨hc.replica, hc.edits, fun f hf => hc.outbox f (by simp [hout, hf]), hc.inbox⟩
    · simpa [World.onClient, heq] using hc
  · obtain ⟨hin, hknown⟩ := h.greeted conn' hg
    refine ⟨hin, fun x hx => ?_⟩
    by_cases heq : conn' = conn
    · subst heq
      simpa [World.onClient] using hknown x hx
    · simpa [World.onClient, heq] using hknown x hx

/-- The room handles a command: everybody may be sent more, the room may be told more, and who is
greeted afterwards was told what the room was. -/
theorem Synced.turn {R' : ID → Prop} (h : w.Synced H B R T)
    (hroom : Replica H B R' (w.room.turn cfg ⟨.command cmd, now, []⟩).room.doc)
    (hin : ∀ conn, ∀ f ∈ framesTo conn (w.room.turn cfg ⟨.command cmd, now, []⟩).sends,
      ∀ m, decode f = .ok m → Incoming H B m)
    (hgreeted : ∀ conn, (w.turn cfg now cmd).greeted conn = true → ∀ x, R' x →
      T conn x ∨ ∃ f ∈ ((w.turn cfg now cmd).clients conn).inbox, Brings f x) :
    (w.turn cfg now cmd).Synced H B R' T := by
  refine ⟨hroom, fun conn => ?_, fun conn hg => ⟨?_, hgreeted conn hg⟩⟩
  · have hc := h.clients conn
    refine ⟨hc.replica, hc.edits, hc.outbox, fun f hf m hm => ?_⟩
    rcases List.mem_append.1 hf with hf | hf
    · exact hc.inbox f hf m hm
    · exact hin conn f hf m hm
  · exact (Bool.and_eq_true_iff.1 hg).2

theorem mem_framesTo {conn : Conn} {sends : List (Conn × Bytes × Bool)} {f : Bytes} :
    f ∈ framesTo conn sends ↔ ∃ ok, (conn, f, ok) ∈ sends := by
  simp only [framesTo, List.mem_map, List.mem_filter, decide_eq_true_eq]
  constructor
  · rintro ⟨⟨c, f', ok⟩, ⟨hm, rfl⟩, rfl⟩
    exact ⟨ok, hm⟩
  · rintro ⟨ok, hm⟩
    exact ⟨_, ⟨hm, rfl⟩, rfl⟩

theorem Synced.known (h : w.Synced H B R T) (hg : w.greeted conn = true) {x : ID} (hx : R x) :
    T conn x ∨ ∃ f ∈ ((w.turn cfg now cmd).clients conn).inbox, Brings f x :=
  ((h.greeted conn hg).2 x hx).imp_right fun ⟨f, hf, hb⟩ => ⟨f, List.mem_append_left _ hf, hb⟩

theorem Synced.quiet (h : w.Synced H B R T)
    (hdoc : (w.room.turn cfg ⟨.command cmd, now, []⟩).room.doc = w.room.doc)
    (hq : ∀ s ∈ (w.room.turn cfg ⟨.command cmd, now, []⟩).sends, Quiet s.2.1)
    (hhello : ∀ conn, isHello conn cmd = true →
      (w.room.turn cfg ⟨.command cmd, now, []⟩).room.clientsOf conn = none) :
    (w.turn cfg now cmd).Synced H B R T := by
  refine h.turn (hdoc ▸ h.room) (fun conn f hf m hm => ?_) fun conn hg x hx => ?_
  · obtain ⟨ok, hs⟩ := mem_framesTo.1 hf
    exact Incoming.of_quiet (hq _ hs) hm
  · obtain ⟨hg, hin⟩ := Bool.and_eq_true_iff.1 hg
    rcases Bool.or_eq_true_iff.1 hg with hg | hhi
    · exact h.known hg hx
    · rw [hhello conn hhi] at hin
      cases hin

/-- The room applies an update of `conn` and relays it. -/
theorem Synced.relay (h : w.Synced H B R T) (hH : H.Grounded) {frame update : Bytes}
    (hown : Own H B (T conn) update)
    (happ : w.room.doc.applyUpdate update =
      .ok (w.room.turn cfg ⟨.command (.frame conn frame), now, []⟩).room.doc)
    (hsends : (w.room.turn cfg ⟨.command (.frame conn frame), now, []⟩).sends =
      (Handler.others { room := w.room } (some conn)).map fun c => (c, writeUpdate update, true))
    (hhello : ∀ conn', isHello conn' (.frame conn frame) = false) :
    ∃ R', (w.turn cfg now (.frame conn frame)).Synced H B R' T := by
  obtain ⟨hlen, u, hu, hgood, hunits⟩ := hown
  have hdec := decode_writeUpdate hlen
  have hdoc : (w.room.turn cfg ⟨.command (.frame conn frame), now, []⟩).room.doc =
      w.room.doc.receive update := by rw [Doc.receive, happ]
  refine ⟨fun x => R x ∨ u.Units x, h.turn ?_ (fun conn' f hf m hm => ?_) fun conn' hg x hx => ?_⟩
  · rw [hdoc]
    exact h.room.receive hH hu hgood
  · obtain ⟨ok, hs⟩ := mem_framesTo.1 hf
    rw [hsends] at hs
    obtain ⟨c, -, heq⟩ := List.mem_map.1 hs
    obtain rfl : writeUpdate update = f := (Prod.mk.inj (Prod.mk.inj heq).2).1
    obtain rfl : Message.update update = m := Except.ok.inj (hdec.symm.trans hm)
    exact ⟨u, hu, hgood⟩
  · obtain ⟨hg, -⟩ := Bool.and_eq_true_iff.1 hg
    rw [hhello conn', Bool.or_false] at hg
    rcases hx with hx | hx
    · exact h.known hg hx
    · by_cases hself : conn' = conn
      · exact .inl (hself ▸ hunits x hx)
      · -- everybody else who is connected is sent the update
        refine .inr ⟨writeUpdate update, List.mem_append_right _ (mem_framesTo.2 ⟨true, ?_⟩),
          update, u, .inr hdec, hu, hx⟩
        rw [hsends]
        refine List.mem_map.2 ⟨conn', List.mem_filter.2 ⟨?_, by simpa using hself⟩, rfl⟩
        have hin := (h.greeted conn' hg).1
        unfold clientsOf at hin
        rw [Option.isSome_map, List.find?_isSome] at hin
        obtain ⟨p, hp, heq⟩ := hin
        exact List.mem_map.2 ⟨p, hp, by simpa using heq⟩

/-- The room answers the state vector of `conn`, and holds nothing back. -/
theorem Synced.answer (h : w.Synced H B R T) (hH : H.Grounded) (hB : Small B)
    (hmem : ∀ x, H.mem x → B x) {frame sv diff : Bytes} {rest : List (Conn × Bytes × Bool)}
    (hout : Outgoing H B (T conn) (.syncStep1 sv)) (hdiff : w.room.doc.encodeDiff sv = .ok diff)
    (hlen : diff.length ≤ maxSafeInteger) (hpending : w.room.doc.pending = [])
    (hdoc : (w.room.turn cfg ⟨.command (.frame conn frame), now, []⟩).room.doc = w.room.doc)
    (hsends : (w.room.turn cfg ⟨.command (.frame conn frame), now, []⟩).sends =
      (conn, writeSyncStep2 diff, true) :: rest)
    (hrest : ∀ s ∈ rest, Quiet s.2.1 ∨
      ∃ ours, s.2.1 = writeSyncStep1 ours ∧ w.room.doc.encodeStateVector = .ok ours) :
    (w.turn cfg now (.frame conn frame)).Synced H B R T := by
  obtain ⟨v, hv, hknown⟩ := hout
  obtain ⟨b, u, hb, hu, hgood, -, hunits⟩ := h.room.pass hH.toLawful hB hmem hv.2
  rw [Doc.encodeDiff, hv.1] at hdiff
  obtain rfl : b = diff := Except.ok.inj (hb.symm.trans hdiff)
  have hdec := decode_writeSyncStep2 hlen
  refine h.turn (hdoc ▸ h.room) (fun conn' f hf m hm => ?_) fun conn' hg x hx => ?_
  · obtain ⟨ok, hs⟩ := mem_framesTo.1 hf
    rw [hsends] at hs
    rcases List.mem_cons.1 hs with heq | hs
    · obtain rfl : f = writeSyncStep2 b := (Prod.mk.inj (Prod.mk.inj heq).2).1
      obtain rfl : Message.syncStep2 b = m := Except.ok.inj (hdec.symm.trans hm)
      exact ⟨u, hu, hgood⟩
    · rcases hrest _ hs with hq | ⟨ours, heq, hours⟩
      · exact Incoming.of_quiet hq hm
      · obtain rfl : f = writeSyncStep1 ours := heq
        obtain rfl : Message.syncStep1 ours = m :=
          Except.ok.inj (syncMessage_of_decode (by decide) hm)
        obtain ⟨o, ho, hvec⟩ := h.room.stateVector hB hmem
        obtain rfl : o = ours := Except.ok.inj (ho.symm.trans hours)
        refine ⟨_, hvec, fun k => ?_⟩
        rw [Doc.stateVector_get]
        exact h.room.not_low_state hH.toLawful k
  · obtain ⟨hg, -⟩ := Bool.and_eq_true_iff.1 hg
    rcases Bool.or_eq_true_iff.1 hg with hg | hhi
    · exact h.known hg hx
    · obtain rfl : conn = conn' := by
        simp only [isHello, Bool.and_eq_true, decide_eq_true_eq] at hhi
        exact hhi.1
      -- what the sender does not have already is in the difference
      have hhas := h.room.has_of_told hpending hx
      rcases Nat.lt_or_ge x.clock (v.get x.client) with hlt | hge
      · exact .inl (hknown x hlt)
      · refine .inr ⟨writeSyncStep2 b, List.mem_append_right _ (mem_framesTo.2 ⟨true, ?_⟩),
          b, u, .inl hdec, hu, (hunits x).2 ⟨hhas, hge⟩⟩
        rw [hsends]
        exact List.mem_cons_self ..

/-- The room handles a frame of `conn`. -/
theorem Synced.handle (h : w.Synced H B R T) (hH : H.Grounded) (hB : Small B)
    (hmem : ∀ x, H.mem x → B x) {frame : Bytes}
    (hout : ∀ m, decode frame = .ok m → Outgoing H B (T conn) m)
    (hok : ∀ sv, decode frame = .ok (.syncStep1 sv) → (w.room.clientsOf conn).isSome →
      w.room.doc.pending = [] ∧
        ∀ diff, w.room.doc.encodeDiff sv = .ok diff → diff.length ≤ maxSafeInteger) :
    ∃ R', (w.turn cfg now (.frame conn frame)).Synced H B R' T := by
  have hrelay : Handler.Relays w.room conn frame
      (w.room.turn cfg ⟨.command (.frame conn frame), now, []⟩) :=
    Handler.frame_relays w.room conn frame
  cases hrelay with
  | quiet hdoc hq hhello =>
    refine ⟨R, h.quiet hdoc hq fun conn' hhi => ?_⟩
    simp only [isHello, Bool.and_eq_true, decide_eq_true_eq] at hhi
    obtain ⟨rfl, hhi⟩ := hhi
    split at hhi
    next sv hdec => exact hhello sv hdec
    next => cases hhi
  | @update update hdec happ hsends =>
    refine h.relay hH (hdec.elim (hout _) (hout _)) happ hsends fun conn' => ?_
    rcases hdec with hdec | hdec <;> simp [isHello, hdec]
  | @answer sv diff rest hin hdec hdiff hdoc hsends hrest =>
    obtain ⟨hpending, hlen⟩ := hok sv hdec hin
    exact ⟨R, h.answer hH hB hmem (hout _ hdec) hdiff (hlen diff hdiff) hpending hdoc hsends hrest⟩

/-- A step keeps room and clients in touch. -/
theorem Synced.step (h : w.Synced H B R T) (hH : H.Grounded) (hB : Small B)
    (hmem : ∀ x, H.mem x → B x) {hist : List Bytes}
    (hgood : ∀ b ∈ hist, b.length ≤ maxSafeInteger ∧ ∃ u, decodeUpdate b = .ok u ∧ u.Good H B)
    {st : Step} (hok : w.Allowed hist st) : ∃ R' T', (w.step cfg st).Synced H B R' T' := by
  cases st with
  | join now conn =>
    refine ⟨R, T, h.quiet ?_ ?_ fun _ hhi => by cases hhi⟩
    · simp only [Room.turn, Handler.handle, Handler.join]
      split <;> rfl
    · simp only [Room.turn, Handler.handle, Handler.join]
      split <;> simp
  | leave now conn =>
    exact ⟨R, T, h.quiet (Handler.leave_aside conn).doc
      ((Handler.leave_hushed conn).quiet_sends rfl) fun _ hhi => by cases hhi⟩
  | handle now conn =>
    simp only [World.step]
    split
    · exact ⟨R, T, h⟩
    next frame rest hout =>
      have hfirst := (h.clients conn).outbox frame (by simp [hout])
      obtain ⟨R', h'⟩ := (h.pop hout).handle hH hB hmem hfirst fun sv => hok frame sv (by simp [hout])
      exact ⟨R', T, h'⟩
  | edit conn update =>
    obtain ⟨hlen, u, hu, hg⟩ := hgood update hok
    obtain ⟨T', h'⟩ := h.onClient (f := (·.edit update)) (Client.advances_edit hH hlen hu hg)
    exact ⟨R, T', h'⟩
  | post conn update =>
    obtain ⟨T', h'⟩ := h.onClient (f := (·.post update)) (Client.advances_post update)
    exact ⟨R, T', h'⟩
  | hello conn =>
    obtain ⟨T', h'⟩ := h.onClient (Client.advances_hello hH.toLawful hB hmem)
    exact ⟨R, T', h'⟩
  | other conn frame =>
    obtain ⟨T', h'⟩ := h.onClient (f := (·.other frame)) (Client.advances_other frame)
    exact ⟨R, T', h'⟩
  | receive conn answer =>
    obtain ⟨T', h'⟩ := h.onClient (f := (·.receive answer))
      (Client.advances_receive hH hB hmem answer)
    exact ⟨R, T', h'⟩

theorem Synced.run (h : w.Synced H B R T) (hH : H.Grounded) (hB : Small B)
    (hmem : ∀ x, H.mem x → B x) {hist : List Bytes}
    (hgood : ∀ b ∈ hist, b.length ≤ maxSafeInteger ∧ ∃ u, decodeUpdate b = .ok u ∧ u.Good H B)
    {steps : List Step} (hall : InOrder cfg hist w steps) :
    ∃ R' T', (w.run cfg steps).Synced H B R' T' := by
  induction steps generalizing w R T with
  | nil => exact ⟨R, T, h⟩
  | cons st steps ih =>
    obtain ⟨R', T', h'⟩ : ∃ R' T', (w.step cfg st).Synced H B R' T' :=
      h.step hH hB hmem hgood hall.1
    exact ih h' hall.2

theorem Synced.state_le (h : w.Synced H B R T) (hH : H.Grounded) (hg : w.greeted conn = true)
    (hin : (w.clients conn).inbox = []) (k : ℕ) :
    w.room.doc.state k ≤ (w.clients conn).doc.state k := by
  have htold : ∀ x, R x → T conn x := by
    intro x hx
    refine ((h.greeted conn hg).2 x hx).resolve_right ?_
    rintro ⟨f, hf, -⟩
    rw [hin] at hf
    cases hf
  have hhas : ∀ x, w.room.doc.Has x → (w.clients conn).doc.Has x := by
    intro x hx
    obtain ⟨hm, hR, hpast⟩ := (h.room.has_iff hH).1 hx
    exact ((h.clients conn).replica.has_iff hH).2
      ⟨hm, htold x hR, fun y hy => htold y (hpast y hy)⟩
  by_contra hlt
  exact lt_irrefl _ (hhas ⟨k, (w.clients conn).doc.state k⟩ (not_le.1 hlt))

end World

end Synced

/-! ### Clients keep up -/

namespace World

/-- A room that was loaded, and clients that bring along what they have already. -/
def start (r : Room) (own : Conn → List Bytes) : World :=
  { room := r, clients := fun conn => { doc := .replay (own conn) } }

variable {hist loaded : List Bytes} {cfg : Config} {r : Room} {own : Conn → List Bytes}

theorem start_synced (h : WellFormed hist) (hm : Modest hist) {H : Shape} (hS : ShapeOf hist H)
    (hdoc : r.doc = .replay loaded) (hloaded : ∀ b ∈ loaded, b ∈ hist)
    (hown : ∀ conn, ∀ b ∈ own conn, b ∈ hist) :
    (start r own).Synced H (fun x => HasUnit hist x ∨ NamedBy hist x) (CarriedBy loaded)
      fun conn => CarriedBy (own conn) where
  room := by
    rw [start, hdoc]
    exact .replay hS h hm hloaded
  clients conn := ⟨.replay hS h hm (hown conn), by simp [start], by simp [start], by simp [start]⟩
  greeted _ hg := by cases hg

/-- **Clients keep up.**  All edits are updates of one well-formed history of modest size, and
whenever the room answers a state vector it holds nothing back. Then a connected client whose state
vector was answered and that has taken every frame sent to it has whatever the room has. -/
theorem clients_keep_up (h : WellFormed hist) (hm : Modest hist) (hdoc : r.doc = .replay loaded)
    (hloaded : ∀ b ∈ loaded, b ∈ hist) (hown : ∀ conn, ∀ b ∈ own conn, b ∈ hist)
    {steps : List Step} (hall : InOrder cfg hist (start r own) steps) {conn : Conn}
    (hg : ((start r own).run cfg steps).greeted conn = true)
    (hin : (((start r own).run cfg steps).clients conn).inbox = []) (k : ℕ) :
    ((start r own).run cfg steps).room.doc.state k ≤
      (((start r own).run cfg steps).clients conn).doc.state k := by
  obtain ⟨H, hS⟩ := h.exists_shape
  have hgood : ∀ b ∈ hist, b.length ≤ maxSafeInteger ∧ ∃ u, decodeUpdate b = .ok u ∧
      u.Good H fun x => HasUnit hist x ∨ NamedBy hist x :=
    fun b hb => ⟨hm.length b hb, hS.good h hm hb⟩
  obtain ⟨R, T, hsync⟩ := (start_synced h hm hS hdoc hloaded hown).run hS.grounded hm.small
    (fun x hx => .inl (hS.mem.1 hx)) hgood hall
  exact hsync.state_le hS.grounded hg hin k

/-! ### A letter that comes before the one it follows -/

namespace Typing

/-- One client. -/
def ann : Conn := ⟨1, true⟩

/-- Another client. -/
def bob : Conn := ⟨2, true⟩

/-- Ann makes an update, and the room handles it. -/
def types (update : Bytes) : List Step := [.edit ann update, .post ann update, .handle 0 ann]

/-- Bob joins, asks for what it is missing, and takes the difference and the state vector it is
sent. -/
def asks : List Step :=
  [.join 0 bob, .hello bob, .handle 0 bob, .receive bob false, .receive bob false]

/-- What becomes of a new room. -/
def after (steps : List Step) : World := (start (.new {} 0) fun _ => []).run {} steps

/-- The letter `a` of client 1. -/
def first : Bytes := [1, 1, 1, 0, 4, 1, 1, 116, 1, 97, 0]

/-- The letter `b` of client 1, after it. -/
def second : Bytes := [1, 1, 1, 1, 132, 1, 0, 1, 98, 0]

/-- Ann's second letter reaches the room before the first. -/
def swapped : List Step :=
  [.join 0 ann, .edit ann first] ++ types second ++ asks ++
    [.post ann first, .handle 0 ann, .receive bob false]

/-- Ann types before Bob joins. -/
def inOrder : List Step := .join 0 ann :: types Sample.ab ++ asks

theorem allowed_update {hist : List Bytes} {w : World} {conn : Conn} {b : Bytes}
    (hlen : b.length ≤ maxSafeInteger)
    (hout : (w.clients conn).outbox.head? = some (writeUpdate b)) :
    w.Allowed hist (.handle 0 conn) := by
  intro frame sv hf hdec _
  obtain rfl : writeUpdate b = frame := Option.some.inj (hout.symm.trans hf)
  rw [decode_writeUpdate hlen] at hdec
  cases hdec

theorem allowed_hello {hist : List Bytes} {w : World} {conn : Conn} (sv diff : Bytes)
    (hlen : sv.length ≤ maxSafeInteger ∧ diff.length ≤ maxSafeInteger)
    (hout : (w.clients conn).outbox.head? = some (writeSyncStep1 sv))
    (hpending : w.room.doc.pending = []) (hdiff : w.room.doc.encodeDiff sv = .ok diff) :
    w.Allowed hist (.handle 0 conn) := by
  intro frame sv' hf hdec _
  obtain rfl : writeSyncStep1 sv = frame := Option.some.inj (hout.symm.trans hf)
  obtain rfl : sv = sv' :=
    Message.syncStep1.inj (Except.ok.inj ((decode_writeSyncStep1 hlen.1).symm.trans hdec))
  exact ⟨hpending, fun diff' hdiff' => Except.ok.inj (hdiff.symm.trans hdiff') ▸ hlen.2⟩

end Typing

open Typing

/-- Ann has typed two letters when Bob joins. -/
theorem bob_keeps_up : WellFormed [Sample.ab, Sample.c] ∧ Modest [Sample.ab, Sample.c] ∧
    (after inOrder).room.doc.state 1 = 2 ∧
    ∀ k, (after inOrder).room.doc.state k ≤ ((after inOrder).clients bob).doc.state k := by
  refine ⟨Sample.wellFormed, Sample.modest, by decide +kernel, fun k => ?_⟩
  have hdoc : (Room.new {} 0).doc = .replay [] := rfl
  refine clients_keep_up Sample.wellFormed Sample.modest hdoc (by simp) (by simp) ?_ ?_ ?_ k
  · refine ⟨trivial, List.mem_cons_self .., trivial, ?_, trivial, trivial, ?_, trivial, trivial,
      trivial⟩
    · exact allowed_update (b := Sample.ab) (by decide) (by decide +kernel)
    · exact allowed_hello [0] Sample.ab (by decide) (by decide +kernel)
        (by decide +kernel) (by decide +kernel)
  · decide +kernel
  · decide +kernel

/-- Bob is connected, was answered and took every frame, but the room has two letters of client 1
and Bob one: the second was held back when the room answered, and was not sent again when the first
let it in. -/
theorem client_left_behind :
    (after swapped).greeted bob = true ∧ ((after swapped).clients bob).inbox = [] ∧
      (after swapped).room.doc.state 1 = 2 ∧ ((after swapped).clients bob).doc.state 1 = 1 := by
  decide +kernel

end World

end YCollab.Room
