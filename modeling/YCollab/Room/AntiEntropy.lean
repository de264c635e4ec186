import YCollab.Room.Cluster
import YCollab.Room.Handshake

/-!
# Anti-entropy between rooms that agree

A room with connections announces its state vector from time to time, and whoever hears it answers
with what the announcer is missing, unless that is the empty update. The difference a document
encodes carries all the deletions it knows of, whatever the peer has. So rooms that agree on
everything keep answering each other, and relaying the answers to their connections, as soon as
anything was ever deleted (`antiEntropy_quiet_iff`).
-/

namespace YCollab.Crdt.Doc

/-- The documents have the same clocks and know of the same deletions. -/
structure Agree (d d' : Doc) : Prop where
  stateVector : d.stateVector = d'.stateVector
  deleteSet : d.deleteSet = d'.deleteSet
  pendingDeletes : d.pendingDeletes = d'.pendingDeletes

/-- The document knows of no deletion, or of deletions that cannot be written. -/
def Unanswering (d : Doc) : Prop :=
  d.Intact ∨ ∃ x, (⟨[], d.deleteSetForUpdate⟩ : Update).encode = .error x

variable {d d' : Doc} {sv : Bytes}

theorem Agree.deleteSetForUpdate (h : d.Agree d') :
    d.deleteSetForUpdate = d'.deleteSetForUpdate := by
  unfold Doc.deleteSetForUpdate
  rw [h.pendingDeletes, h.deleteSet]

theorem Agree.unanswering (h : d.Agree d') (hd : d.Unanswering) : d'.Unanswering := by
  unfold Unanswering at hd ⊢
  rwa [← deleteSetForUpdate_eq_empty_iff, ← h.deleteSetForUpdate, deleteSetForUpdate_eq_empty_iff]

theorem Agree.encodeDiff (h : d.Agree d') (hsv : d'.encodeStateVector = .ok sv) :
    d.encodeDiff sv = (⟨[], d.deleteSetForUpdate⟩ : Update).encode :=
  encodeDiff_of_le hsv fun c => by
    rw [← stateVector_get, ← stateVector_get, h.stateVector]

end YCollab.Crdt.Doc

namespace YCollab.Room

open Lib0 Crdt Protocol

namespace Handler

variable {cfg : Config} {h : Handler} {d : Doc} {sv : Bytes}

theorem answerStateVector_of_unanswering (hagree : h.room.doc.Agree d)
    (hsv : d.encodeStateVector = .ok sv) (hq : h.room.doc.Unanswering) :
    h.answerStateVector cfg sv = h := by
  unfold answerStateVector
  rw [hagree.encodeDiff hsv]
  split
  · rfl
  next diff hdiff =>
    rcases hq with hq | ⟨x, hx⟩
    · rw [if_pos]
      exact (isEmptyUpdate_encode_iff hdiff).2 (Doc.deleteSetForUpdate_eq_empty_iff.2 hq)
    · cases hx.symm.trans hdiff

theorem answerStateVector_of_not_unanswering (hagree : h.room.doc.Agree d)
    (hsv : d.encodeStateVector = .ok sv) (hq : ¬h.room.doc.Unanswering) :
    ∃ diff, h.answerStateVector cfg sv = h.publish cfg .update diff := by
  obtain ⟨hgone, herr⟩ := not_or.1 hq
  unfold answerStateVector
  rw [hagree.encodeDiff hsv]
  split
  next x hx => exact absurd ⟨x, hx⟩ herr
  next diff hdiff =>
    refine ⟨diff, if_neg fun hempty => hgone ?_⟩
    exact Doc.deleteSetForUpdate_eq_empty_iff.1 ((isEmptyUpdate_encode_iff hdiff).1 hempty)

theorem announce_spec (cfg : Config) (h : Handler) (now : ℤ) :
    (h.announce cfg now).sends = h.sends ∧ (h.announce cfg now).room.doc = h.room.doc ∧
      ((h.announce cfg now).room.published = h.room.published ∨
        ∃ sv, h.room.doc.encodeStateVector = .ok sv ∧
          (h.announce cfg now).room.published =
            h.room.published ++ [⟨cfg.nodeID, .stateVector, sv⟩]) := by
  obtain heq | ⟨sv, hsv, heq⟩ := announce_eq cfg now h <;> rw [heq]
  · exact ⟨rfl, rfl, .inl rfl⟩
  · unfold publish
    split
    · exact ⟨rfl, rfl, .inr ⟨sv, hsv, rfl⟩⟩
    · exact ⟨rfl, rfl, .inl rfl⟩

end Handler

namespace Cluster

variable {ι : Type} [DecidableEq ι] (cfg : ι → Config)

/-- What the rooms do while all clients are idle. -/
inductive Round (ι : Type) where
  /-- A tick makes a room announce its state vector. -/
  | announce (i : ι) (now : ℤ)
  /-- An envelope of one room reaches another. -/
  | deliver (src : ι) (index : ℕ) (dst : ι) (now : ℤ) (outcomes : List Bool)

/-- A room announces its state vector, if it is time. -/
def announce (c : Cluster ι) (i : ι) (now : ℤ) : Cluster ι :=
  if (c.rooms i).stopped then c
  else
    let h := ({ room := c.rooms i } : Handler).announce (cfg i) now
    { c with rooms := Function.update c.rooms i h.room, frames := c.frames ++ h.sends }

/-- One action of the round. -/
def round (c : Cluster ι) : Round ι → Cluster ι
  | .announce i now => c.announce cfg i now
  | .deliver src index dst now outcomes => c.step cfg (.deliver src index dst now outcomes)

/-- The cluster after a sequence of rounds. -/
def rounds (c : Cluster ι) (l : List (Round ι)) : Cluster ι := l.foldl (round cfg) c

/-- Nothing but state vectors was published, and nobody was sent anything. -/
def Quiet (c : Cluster ι) : Prop :=
  (∀ i, ∀ e ∈ (c.rooms i).published, e.kind = .stateVector) ∧ c.frames = []

variable {cfg} {rooms : ι → Room} {c : Cluster ι}

/-- The documents are those of `rooms`, and all that was published is their state vectors. -/
structure Still (rooms : ι → Room) (c : Cluster ι) : Prop where
  doc (i : ι) : (c.rooms i).doc = (rooms i).doc
  published (i : ι) : ∀ e ∈ (c.rooms i).published,
    e.kind = .stateVector ∧ (rooms i).doc.encodeStateVector = .ok e.payload
  frames : c.frames = []

theorem Still.announce (h : Still rooms c) (i : ι) (now : ℤ) :
    Still rooms (c.announce cfg i now) := by
  unfold Cluster.announce
  split
  · exact h
  obtain ⟨hsends, hdoc, hpub⟩ := Handler.announce_spec (cfg i) { room := c.rooms i } now
  refine ⟨fun j => ?_, fun j e he => ?_, by simp [hsends, h.frames]⟩
  · by_cases hj : j = i
    · subst hj
      simp only [Function.update_self]
      exact hdoc.trans (h.doc j)
    · simpa [hj] using h.doc j
  · by_cases hj : j = i
    · subst hj
      simp only [Function.update_self] at he
      rcases hpub with hpub | ⟨sv, hsv, hpub⟩
      · rw [hpub] at he
        exact h.published j e he
      · rw [hpub, List.mem_append, List.mem_singleton] at he
        rcases he with he | rfl
        · exact h.published j e he
        · exact ⟨rfl, h.doc j ▸ hsv⟩
    · simp only [Function.update_of_ne hj] at he
      exact h.published j e he

theorem Still.deliver (h : Still rooms c) (hagree : ∀ i j, (rooms i).doc.Agree (rooms j).doc)
    (hq : ∀ i, (rooms i).doc.Unanswering) (src : ι) (index : ℕ) (dst : ι) (now : ℤ)
    (outcomes : List Bool) : Still rooms (c.step cfg (.deliver src index dst now outcomes)) := by
  simp only [step]
  split
  · exact h
  next env henv =>
    split
    · exact h
    obtain ⟨hkind, hsv⟩ := h.published src env (List.mem_of_getElem? henv)
    have hturn : (c.rooms dst).turn (cfg dst) ⟨.remote env, now, outcomes⟩ =
        { room := c.rooms dst, outcomes } := by
      simp only [Room.turn, Handler.remoteEnvelope, hkind]
      refine Handler.answerStateVector_of_unanswering (d := (rooms src).doc) ?_ hsv ?_
      · exact h.doc dst ▸ hagree dst src
      · exact h.doc dst ▸ hq dst
    have hrooms : (c.turn cfg dst ⟨.remote env, now, outcomes⟩).rooms = c.rooms := by
      simp [Cluster.turn, hturn]
    have hframes : (c.turn cfg dst ⟨.remote env, now, outcomes⟩).frames = c.frames := by
      simp [Cluster.turn, hturn]
    exact ⟨fun i => hrooms ▸ h.doc i, fun i => hrooms ▸ h.published i, hframes.trans h.frames⟩

theorem Still.rounds (h : Still rooms c) (hagree : ∀ i j, (rooms i).doc.Agree (rooms j).doc)
    (hq : ∀ i, (rooms i).doc.Unanswering) (l : List (Round ι)) : Still rooms (c.rounds cfg l) := by
  induction l generalizing c with
  | nil => exact h
  | cons r l ih =>
    cases r with
    | announce i now => exact ih (h.announce i now)
    | deliver src index dst now outcomes =>
      exact ih (h.deliver hagree hq src index dst now outcomes)

/-- When the room may announce again. -/
def due (cfg : Config) (r : Room) : ℤ := r.lastAnnounce.elim 0 (· + cfg.antiEntropy)

theorem announce_due {cfg : Config} {r : Room} {sv : Bytes} (hbus : cfg.bus = true)
    (hconns : r.conns ≠ []) (hsv : r.doc.encodeStateVector = .ok sv) :
    (({ room := r } : Handler).announce cfg (due cfg r)).room.published =
      r.published ++ [⟨cfg.nodeID, .stateVector, sv⟩] := by
  have hdue : (r.lastAnnounce.any fun last => due cfg r - last < cfg.antiEntropy) = false := by
    unfold due
    cases r.lastAnnounce with
    | none => rfl
    | some last => simp
  simp [Handler.announce, Handler.publish, hbus, hconns, hdue, hsv]

/-- **Anti-entropy between rooms that agree is quiet if and only if nothing was deleted**, or
nothing that can be written. Room `i` has connections and can write its state vector, and `j` is
the room of another node. -/
theorem antiEntropy_quiet_iff (hagree : ∀ i j, (rooms i).doc.Agree (rooms j).doc)
    (hpublished : ∀ i, (rooms i).published = []) {i j : ι} {sv : Bytes}
    (hids : (cfg i).nodeID ≠ (cfg j).nodeID)
    (hbus : (cfg i).bus = true ∧ (cfg j).bus = true)
    (hlive : (rooms i).stopped = false ∧ (rooms j).stopped = false)
    (hconns : (rooms i).conns ≠ []) (hsv : (rooms i).doc.encodeStateVector = .ok sv) :
    (∀ l, (rounds cfg ⟨rooms, [], [], fun _ _ => 0, fun _ => 0⟩ l).Quiet) ↔
      (rooms j).doc.Unanswering := by
  constructor
  · intro hquiet
    by_contra hq
    have hij : j ≠ i := fun h => hids (h ▸ rfl)
    have hanswers : ∃ diff, ({ room := rooms j } : Handler).answerStateVector (cfg j) sv = _ :=
      Handler.answerStateVector_of_not_unanswering (hagree j i) hsv hq
    obtain ⟨diff, hdiff⟩ := hanswers
    -- Room `i` announces its state vector, and it reaches room `j`.
    have hloud := (hquiet [.announce i (due (cfg i) (rooms i)), .deliver i 0 j 0 []]).1 j
    set c₁ := announce cfg ⟨rooms, [], [], fun _ _ => 0, fun _ => 0⟩ i (due (cfg i) (rooms i))
      with hc₁
    have hpub : (c₁.rooms i).published = [⟨(cfg i).nodeID, .stateVector, sv⟩] := by
      simp [hc₁, announce, hlive.1, announce_due hbus.1 hconns hsv, hpublished i]
    have hother : c₁.rooms j = rooms j := by
      simp [hc₁, announce, hlive.1, Function.update_of_ne hij]
    have hnone : c₁.delivered = [] := by
      simp [hc₁, announce, hlive.1]
    have hfree : ¬c₁.Barred cfg i 0 j ⟨(cfg i).nodeID, .stateVector, sv⟩ := by
      simp [Barred, hids, hother, hlive.2, hnone]
    have hanswer : ((c₁.step cfg (.deliver i 0 j 0 [])).rooms j).published =
        [⟨(cfg j).nodeID, .update, diff⟩] := by
      simp [step, hpub, hfree, Cluster.turn, Room.turn, Handler.remoteEnvelope, hother, hdiff,
        Handler.publish, hbus.2, hpublished j]
    change ∀ e ∈ ((c₁.step cfg (.deliver i 0 j 0 [])).rooms j).published, _ at hloud
    rw [hanswer] at hloud
    simp at hloud
  · intro hq l
    have hstart : Still rooms ⟨rooms, [], [], fun _ _ => 0, fun _ => 0⟩ :=
      ⟨fun _ => rfl, fun k => by simp [hpublished k], rfl⟩
    have hstill : Still rooms (rounds cfg ⟨rooms, [], [], fun _ _ => 0, fun _ => 0⟩ l) :=
      hstart.rounds hagree (fun k => (hagree j k).unanswering hq) l
    exact ⟨fun k e he => (hstill.published k e he).1, hstill.frames⟩

namespace Duet

/-- Two rooms that have the same updates, one of which Ann is in. -/
def same (updates : List Bytes) (i : Bool) : Room :=
  { doc := Doc.replay updates, conns := if i then [] else [(ann, [])] }

/-- The text `ab` of client 1. -/
def letters : Bytes := [1, 1, 1, 0, 4, 1, 1, 116, 2, 97, 98, 0]

/-- The deletion of its first letter. -/
def deletion : Bytes := [0, 1, 1, 1, 0, 1]

/-- An announcement, and whatever comes of it. -/
def exchange : List (Round Bool) :=
  [.announce false 0, .deliver false 0 true 0 [], .deliver true 0 false 0 []]

/-- What comes of it when the rooms have the same updates. -/
def exchanged (updates : List Bytes) : Cluster Bool :=
  rounds nodes ⟨same updates, [], [], fun _ _ => 0, fun _ => 0⟩ exchange

end Duet

open Duet

/-- Nothing was deleted, so an announcement has no consequences. -/
theorem letters_quiet : (same [letters] true).doc.Unanswering ∧
    ∀ l, (rounds nodes ⟨same [letters], [], [], fun _ _ => 0, fun _ => 0⟩ l).Quiet := by
  have hintact : (same [letters] true).doc.Unanswering := by
    refine .inl (Doc.deleteSetForUpdate_eq_empty_iff.1 (SortedMap.ext_find fun k => ?_))
    have hnil : (same [letters] true).doc.deleteSetForUpdate.entries = [] := by decide +kernel
    rw [SortedMap.find?, hnil]
    rfl
  have hsv : (same [letters] false).doc.encodeStateVector = .ok [1, 1, 2] := by decide +kernel
  refine ⟨hintact, (antiEntropy_quiet_iff (i := false) (j := true) (fun i j => ⟨rfl, rfl, rfl⟩)
    (fun _ => rfl) ?_ ⟨rfl, rfl⟩ ⟨rfl, rfl⟩ ?_ hsv).2 hintact⟩
  · decide
  · decide

/-- **One letter was deleted.** The two rooms agree, but the second one answers the announcement of
the first with the deletion, and the first sends that to Ann. -/
theorem deletion_loud : (same [letters, deletion] false).doc.pending = [] ∧
    (∀ i j, (same [letters, deletion] i).doc.Agree (same [letters, deletion] j).doc) ∧
      ((exchanged [letters, deletion]).rooms true).published = [⟨1, .update, deletion⟩] ∧
      (exchanged [letters, deletion]).frames = [(ann, writeUpdate deletion, true)] :=
  ⟨by decide +kernel, fun _ _ => ⟨rfl, rfl, rfl⟩, by decide +kernel, by decide +kernel⟩

end Cluster

end YCollab.Room
