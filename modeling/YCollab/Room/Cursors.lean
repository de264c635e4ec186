import YCollab.Room.Conns

/-!
# Whose cursors are shown

The tracker holds the states of awareness clients, and the table of connections which of them each
connection has announced. A state that no connection has announced stays when everybody who could
retract it has left, until it times out.

A payload is applied entry by entry, and what was applied before an entry that is refused stays. But
the connection is recorded as the announcer only of a payload that was accepted as a whole. So every
state has an owner after a sequence of commands exactly if no refused payload gives a state to a
client that nobody has announced (`cursors_owned_iff`); `ghost_cursor` is a payload that does.
-/

namespace YCollab.Room

open Lib0 Crdt Protocol

variable {cfg : Config} {now : ℤ} {r : Room} {conn : Conn} {id : ℕ}

/-- Somebody in the room has announced the client. -/
def Announced (r : Room) (id : ℕ) : Prop := ∃ p ∈ r.conns, id ∈ p.2

/-- Every client that has a state was announced by somebody who is still in the room. -/
def Owned (r : Room) : Prop := ∀ id, (r.aw.state id).isSome → r.Announced id

/-- If the payload is refused, the clients it gave a state before that had all been announced by
somebody in the room. -/
def Claimed (r : Room) (payload : Bytes) (now : ℤ) : Prop :=
  ∀ aw changed err, r.aw.applyUpdate payload now = (aw, changed, some err) →
    ∀ id ∈ changed, (aw.state id).isSome → r.Announced id

/-- The table has one row for each connection, and every state an owner. -/
structure Tidy (r : Room) : Prop where
  keys : (r.conns.map Prod.fst).Nodup
  owned : r.Owned

theorem Tidy.of_fresh (hconns : r.conns = []) (haw : r.aw.entries = SortedMap.empty) : r.Tidy where
  keys := by simp [hconns]
  owned id h := by simp [Awareness.state, haw] at h

theorem Tidy.of_eq {r' : Room} (ht : r.Tidy) (hconns : r'.conns = r.conns) (haw : r'.aw = r.aw) :
    r'.Tidy := by
  refine ⟨hconns ▸ ht.keys, fun id hs => ?_⟩
  rw [haw] at hs
  obtain ⟨p, hp, hmem⟩ := ht.owned id hs
  exact ⟨p, hconns ▸ hp, hmem⟩

theorem clientsOf_eq_of_mem (hkeys : (r.conns.map Prod.fst).Nodup) {p : Conn × List ℕ}
    (hp : p ∈ r.conns) : r.clientsOf p.1 = some p.2 := by
  unfold clientsOf
  cases hfind : r.conns.find? fun q => q.1 = p.1 with
  | none =>
    rw [List.find?_eq_none] at hfind
    exact absurd (decide_eq_true rfl) (hfind p hp)
  | some q =>
    have hq : q.1 = p.1 := by simpa using List.find?_some hfind
    rw [List.inj_on_of_nodup_map hkeys (List.mem_of_find?_eq_some hfind) hp hq]
    rfl

namespace Handler

variable {h h' : Handler}

/-! ### Departures -/

theorem departed_tidy {clients : List ℕ} (hc : h.room.clientsOf conn = some clients)
    (ht : h.room.Tidy) : (h.departed now conn clients).room.Tidy where
  keys := ht.keys.sublist (List.filter_sublist.map _)
  owned id hs := by
    have hs : ((h.room.aw.removeClients clients now).1.state id).isSome := hs
    rw [Awareness.removeClients_state] at hs
    split at hs
    · cases hs
    next hid =>
      obtain ⟨p, hp, hmem⟩ := ht.owned id hs
      refine ⟨p, List.mem_filter.2 ⟨hp, ?_⟩, hmem⟩
      simp only [decide_eq_true_eq]
      rintro rfl
      exact hid (Option.some.inj ((clientsOf_eq_of_mem ht.keys hp).symm.trans hc) ▸ hmem)

theorem publish_tidy {kind : Kind} {payload : Bytes} (ht : h.room.Tidy) :
    (h.publish cfg kind payload).room.Tidy := by
  unfold publish
  split
  · exact ⟨ht.keys, ht.owned⟩
  · exact ht

theorem tidy_traffic : Traffic cfg now (fun _ => True) fun h h' => h.room.Tidy → h'.room.Tidy where
  refl _ ht := ht
  trans h₁ h₂ ht := h₂ (h₁ ht)
  send _ _ _ _ ht := ht
  close _ _ _ _ ht := ht
  cursors _ := trivial
  depart hc ht := departed_tidy hc ht
  publish _ hc hd ht := publish_tidy (hd (departed_tidy hc ht))

/-- A client that nobody has announced: its state stays as it is, and nobody announces it. -/
def Untouched (id : ℕ) (h h' : Handler) : Prop :=
  ¬h.room.Announced id → ¬h'.room.Announced id ∧ h'.room.aw.state id = h.room.aw.state id

theorem Untouched.trans {h'' : Handler} (h₁ : Untouched id h h') (h₂ : Untouched id h' h'') :
    Untouched id h h'' := fun hn => ⟨(h₂ (h₁ hn).1).1, (h₂ (h₁ hn).1).2.trans (h₁ hn).2⟩

theorem departed_untouched {clients : List ℕ} (hc : h.room.clientsOf conn = some clients) :
    Untouched id h (h.departed now conn clients) := by
  refine fun hn => ⟨fun ⟨p, hp, hmem⟩ => hn ⟨p, (List.mem_filter.1 hp).1, hmem⟩, ?_⟩
  have hrow : ∃ p ∈ h.room.conns, p.2 = clients := by
    unfold clientsOf at hc
    obtain ⟨p, hp, heq⟩ := Option.map_eq_some_iff.1 hc
    exact ⟨p, List.mem_of_find?_eq_some hp, heq⟩
  obtain ⟨p, hp, rfl⟩ := hrow
  refine (Awareness.removeClients_state p.2 id).trans (if_neg fun hmem => hn ⟨p, hp, hmem⟩)

theorem publish_untouched {kind : Kind} {payload : Bytes} :
    Untouched id h (h.publish cfg kind payload) := by
  unfold publish
  split
  · exact fun hn => ⟨hn, rfl⟩
  · exact fun hn => ⟨hn, rfl⟩

theorem untouched_traffic (id : ℕ) : Traffic cfg now (fun _ => True) (Untouched id) where
  refl _ hn := ⟨hn, rfl⟩
  trans := .trans
  send _ _ _ _ hn := ⟨hn, rfl⟩
  close _ _ _ _ hn := ⟨hn, rfl⟩
  cursors _ := trivial
  depart hc := departed_untouched hc
  publish _ hc hd := ((departed_untouched hc).trans hd).trans publish_untouched

/-! ### Commands -/

theorem announce_tidy (ht : h.room.Tidy) : (h.announce cfg now).room.Tidy := by
  obtain heq | ⟨sv, -, heq⟩ := announce_eq cfg now h <;> rw [heq]
  · exact ht
  · exact publish_tidy (ht.of_eq rfl rfl)

theorem relayed_tidy {doc : Doc} {update : Bytes} {except : Option Conn} (ht : h.room.Tidy) :
    let h₁ := ({ h with room := { h.room with doc } } : Handler).record cfg update
    let h₂ : Handler := { h₁ with room := { h₁.room with versionDirty := true } }
    ((h₂.broadcast cfg now (writeUpdate update) except).publish cfg .update update).room.Tidy := by
  intro h₁ h₂
  obtain ⟨l, n, -, heq⟩ := record_eq cfg { h with room := { h.room with doc } } update
  have ht₂ : h₂.room.Tidy := by
    simp only [h₂, h₁, heq]
    exact ht.of_eq rfl rfl
  exact publish_tidy (tidy_traffic.broadcast trivial except h₂ ht₂)

theorem join_tidy (ht : h.room.Tidy) (conn : Conn) : (h.join conn).room.Tidy := by
  unfold join
  split
  · exact ht
  next hnew =>
    refine ⟨?_, fun id hs => ?_⟩
    · have hnot : conn ∉ h.room.conns.map Prod.fst := by
        intro hmem
        obtain ⟨p, hp, rfl⟩ := List.mem_map.1 hmem
        rw [clientsOf_eq_of_mem ht.keys hp] at hnew
        exact hnew rfl
      simpa [List.nodup_append, ht.keys] using fun a b hab heq => hnot (List.mem_map.2 ⟨_, hab, heq⟩)
    · obtain ⟨p, hp, hmem⟩ := ht.owned id hs
      exact ⟨p, List.mem_append_left _ hp, hmem⟩

theorem update_tidy (ht : h.room.Tidy) (update : Bytes) : (h.update cfg now conn update).room.Tidy := by
  unfold Handler.update
  split
  · split
    · exact ht
    · exact tidy_traffic.drop _ _ _ _ ht
  · split
    · exact tidy_traffic.drop _ _ _ _ ht
    · exact relayed_tidy ht

theorem stop_tidy (ht : h.room.Tidy) (hempty : h.room.conns = []) (code : ℕ) (reason : Bytes) :
    (h.stop cfg code reason).room.Tidy := by
  obtain ⟨n, heq⟩ := stop_room cfg h code reason
  rw [heq]
  exact ht.of_eq hempty.symm rfl

theorem sweepAwareness_tidy (ht : h.room.Tidy) : (h.sweepAwareness cfg now).room.Tidy := by
  have hsweep : ({ h.room with aw := (h.room.aw.sweep now cfg.awarenessTTL).1 } : Room).Tidy := by
    refine ⟨ht.keys, fun id hs => ht.owned id ?_⟩
    rcases Awareness.sweep_state (a := h.room.aw) now cfg.awarenessTTL id with hnone | heq
    · simp only [hnone, Option.isSome_none, Bool.false_eq_true] at hs
    · exact heq ▸ hs
  unfold sweepAwareness
  split
  next aw payload heq =>
    rw [heq] at hsweep
    exact tidy_traffic.broadcast trivial none _ hsweep
  next aw _ _ heq =>
    rw [heq] at hsweep
    exact hsweep

theorem tick_tidy (ht : h.room.Tidy) : (h.tick cfg now).1.room.Tidy := by
  have ht' : (((h.sweepAwareness cfg now).announce cfg now).versionTick cfg now).room.Tidy := by
    have ht₁ : ((h.sweepAwareness cfg now).announce cfg now).room.Tidy :=
      announce_tidy (sweepAwareness_tidy ht)
    obtain heq | heq := versionTick_eq cfg now ((h.sweepAwareness cfg now).announce cfg now) <;>
      rw [heq]
    · exact ht₁
    · exact ht₁.of_eq rfl rfl
  obtain heq | ⟨hempty, heq⟩ := tick_eq cfg now h <;> rw [heq]
  · exact ht'
  · exact stop_tidy ht' hempty _ _

/-! ### Payloads -/

theorem mem_announced {clients ids : List ℕ} :
    id ∈ announced clients ids ↔ id ∈ clients ∨ id ∈ ids := by
  unfold announced
  induction ids generalizing clients with
  | nil => simp
  | cons k ids ih =>
    rw [List.foldl_cons, ih]
    split
    next hk =>
      rw [List.mem_cons]
      refine ⟨fun h => h.imp_right .inr, ?_⟩
      rintro (h | rfl | h)
      · exact .inl h
      · exact .inl hk
      · exact .inr h
    next => simp [or_assoc]

/-- The table once `conn` has announced `changed`. -/
def announcing (conns : List (Conn × List ℕ)) (conn : Conn) (changed : List ℕ) :
    List (Conn × List ℕ) :=
  conns.map fun p => if p.1 = conn then (p.1, announced p.2 changed) else p

theorem announcing_keys (conns : List (Conn × List ℕ)) (conn : Conn) (changed : List ℕ) :
    (announcing conns conn changed).map Prod.fst = conns.map Prod.fst := by
  rw [announcing, List.map_map]
  refine List.map_congr_left fun p _ => ?_
  simp only [Function.comp_apply]
  split <;> rfl

theorem announcing_tidy {aw : Awareness} {changed : List ℕ} {payload : Bytes} (ht : r.Tidy)
    (hc : (r.clientsOf conn).isSome)
    (happ : r.aw.applyUpdate payload now = (aw, changed, none)) :
    ({ r with aw, conns := announcing r.conns conn changed } : Room).Tidy := by
  refine ⟨(announcing_keys r.conns conn changed).symm ▸ ht.keys, fun id hs => ?_⟩
  rcases Awareness.applyUpdate_state happ id with heq | hid
  · obtain ⟨p, hp, hmem⟩ := ht.owned id (heq ▸ hs)
    refine ⟨_, List.mem_map.2 ⟨p, hp, rfl⟩, ?_⟩
    split
    · exact mem_announced.2 (.inl hmem)
    · exact hmem
  · unfold clientsOf at hc
    rw [Option.isSome_map, List.find?_isSome] at hc
    obtain ⟨p, hp, hconn⟩ := hc
    refine ⟨_, List.mem_map.2 ⟨p, hp, rfl⟩, ?_⟩
    rw [if_pos (by simpa using hconn)]
    exact mem_announced.2 (.inr hid)

theorem unchanged_tidy {aw : Awareness} {payload : Bytes} {err : Option AwarenessErr} (ht : r.Tidy)
    (happ : r.aw.applyUpdate payload now = (aw, [], err)) : ({ r with aw } : Room).Tidy :=
  ⟨ht.keys, fun id hs => ht.owned id
    (((Awareness.applyUpdate_state happ id).resolve_right (by simp)) ▸ hs)⟩

theorem refused_tidy {aw : Awareness} {changed : List ℕ} {payload : Bytes} {err : AwarenessErr}
    (ht : r.Tidy) (hclaimed : r.Claimed payload now)
    (happ : r.aw.applyUpdate payload now = (aw, changed, some err)) :
    ({ r with aw } : Room).Tidy := by
  refine ⟨ht.keys, fun id hs => ?_⟩
  rcases Awareness.applyUpdate_state happ id with heq | hid
  · exact ht.owned id (heq ▸ hs)
  · exact hclaimed aw changed err happ id hid hs

theorem awareness_tidy (ht : h.room.Tidy) (hc : (h.room.clientsOf conn).isSome) {payload : Bytes}
    (hclaimed : h.room.Claimed payload now) : (h.awareness cfg now conn payload).room.Tidy := by
  unfold Handler.awareness
  split
  next aw changed err happ =>
    have hrefused := refused_tidy ht hclaimed happ
    simp only
    split
    · exact tidy_traffic.drop _ _ _ _ hrefused
    · exact tidy_traffic.drop _ _ _ _ hrefused
  next aw happ => exact unchanged_tidy ht happ
  next aw changed _ happ =>
    have hannounced := announcing_tidy ht hc happ
    simp only
    split
    · exact hannounced
    · exact publish_tidy (tidy_traffic.broadcast trivial _ _ hannounced)

theorem claimed_of_awareness {payload : Bytes}
    (ho : (h.awareness cfg now conn payload).room.Owned) : h.room.Claimed payload now := by
  intro aw changed err happ id _ hs
  by_contra hn
  have hkept : ∀ h' : Handler, h'.room = { h.room with aw } → ∀ code reason,
      ¬(h'.drop cfg now conn code reason).room.Owned := by
    intro h' hroom code reason ho'
    have hn₀ : ¬h'.room.Announced id := by rwa [hroom]
    obtain ⟨hn', hstate⟩ := (untouched_traffic id).drop conn code reason h' hn₀
    refine hn' (ho' id ?_)
    rw [hstate, hroom]
    exact hs
  unfold Handler.awareness at ho
  rw [happ] at ho
  simp only at ho
  split at ho
  · exact hkept _ rfl _ _ ho
  · exact hkept _ rfl _ _ ho

/-! ### Commands -/

theorem frame_tidy (ht : h.room.Tidy) {frame : Bytes}
    (hclaimed : ∀ payload, (h.room.clientsOf conn).isSome → decode frame = .ok (.awareness payload) →
      h.room.Claimed payload now) : (h.frame cfg now conn frame).room.Tidy := by
  unfold Handler.frame
  cases hc : h.room.clientsOf conn with
  | none => exact ht
  | some clients =>
    have hin : (h.room.clientsOf conn).isSome := by simp [hc]
    cases hdec : decode frame with
    | error x => exact tidy_traffic.drop _ _ _ _ ht
    | ok m =>
      cases m with
      | awareness payload => exact awareness_tidy ht hin (hclaimed payload hin hdec)
      | syncStep1 sv => exact tidy_traffic.syncStep1 conn sv h ht
      | syncStep2 update => exact update_tidy ht update
      | update update => exact update_tidy ht update
      | queryAwareness => exact tidy_traffic.sendAll conn h ht
      | permissionDenied reason => exact ht

theorem handle_tidy (ht : h.room.Tidy) {c : Command}
    (hclaimed : ∀ conn frame payload, c = .frame conn frame → (h.room.clientsOf conn).isSome →
      decode frame = .ok (.awareness payload) → h.room.Claimed payload now) :
    (h.handle cfg now c).1.room.Tidy := by
  cases c with
  | frame conn frame => exact frame_tidy ht fun payload => hclaimed conn frame payload rfl
  | join conn => exact join_tidy ht conn
  | leave conn => exact tidy_traffic.leave conn h ht
  | tick => exact tick_tidy ht
  | read sv => exact ht
  | merge update =>
    simp only [handle, merge]
    split
    · exact ht
    · exact (relayed_tidy ht).of_eq rfl rfl
  | version label =>
    simp only [handle, takeVersion]
    split
    · exact ht
    · rw [queueVersion_eq]
      exact ht.of_eq rfl rfl
  | evict =>
    simp only [handle]
    split
    · exact ht
    next hempty => exact stop_tidy ht (by simpa using hempty) _ _

end Handler

/-! ### Turns and runs -/

/-- An awareness payload that the turn handles is `Claimed`. -/
def Orderly (r : Room) (i : Input) : Prop :=
  ∀ conn frame payload, i.event = .command (.frame conn frame) → (r.clientsOf conn).isSome →
    decode frame = .ok (.awareness payload) → r.Claimed payload i.now

/-- Every turn of the run is `Orderly`. -/
def AllOrderly (cfg : Config) (r : Room) : List Input → Prop
  | [] => True
  | i :: inputs => (r.stopped = false → r.Orderly i) ∧ AllOrderly cfg (r.run cfg [i]) inputs

theorem run_singleton (cfg : Config) (r : Room) (i : Input) :
    r.run cfg [i] = if r.stopped then r else (r.turn cfg i).room := rfl

theorem run_tidy {i : Input} {c : Command} (hcmd : i.event = .command c) (ht : r.Tidy)
    (ho : r.stopped = false → r.Orderly i) : (r.run cfg [i]).Tidy := by
  rw [run_singleton]
  split
  · exact ht
  next hs =>
    rw [turn, hcmd]
    refine Handler.handle_tidy ht fun conn frame payload hc => ?_
    exact ho (by simpa using hs) conn frame payload (hcmd.trans (congrArg _ hc))

theorem orderly_of_owned {i : Input} (ho : (r.run cfg [i]).Owned) (hs : r.stopped = false) :
    r.Orderly i := by
  intro conn frame payload hframe hin hdec
  obtain ⟨clients, hc⟩ := Option.isSome_iff_exists.1 hin
  simp only [run_singleton, hs, Bool.false_eq_true, if_false, turn, hframe, Handler.handle,
    Handler.frame, hc, hdec] at ho
  exact Handler.claimed_of_awareness ho

/-- **Every visible cursor has an owner**, in every state of a run, exactly if no awareness payload
that is refused has given a state to a client that nobody in the room has announced. -/
theorem cursors_owned_iff (hconns : r.conns = []) (haw : r.aw.entries = SortedMap.empty)
    {inputs : List Input} (hcmd : ∀ i ∈ inputs, ∃ c, i.event = .command c) :
    (∀ n, (r.run cfg (inputs.take n)).Owned) ↔ r.AllOrderly cfg inputs := by
  have ht : r.Tidy := .of_fresh hconns haw
  clear hconns haw
  induction inputs generalizing r with
  | nil => simpa [AllOrderly, run] using ht.owned
  | cons i inputs ih =>
    obtain ⟨c, hc⟩ := hcmd i (List.mem_cons_self ..)
    have hrest := fun ht₁ => ih (r := r.run cfg [i]) (fun j hj => hcmd j (List.mem_cons_of_mem _ hj))
      ht₁
    have hrun : ∀ n, r.run cfg ((i :: inputs).take (n + 1)) =
        (r.run cfg [i]).run cfg (inputs.take n) := fun _ => rfl
    constructor
    · intro ho
      have horderly : r.stopped = false → r.Orderly i := orderly_of_owned (ho 1)
      refine ⟨horderly, (hrest (run_tidy hc ht horderly)).1 fun n => ?_⟩
      rw [← hrun]
      exact ho (n + 1)
    · rintro ⟨horderly, hall⟩ n
      cases n with
      | zero => exact ht.owned
      | succ n =>
        rw [hrun]
        exact (hrest (run_tidy hc ht horderly)).2 hall n

/-! ### A payload that breaks off -/

namespace Ghost

/-- A client that may write. -/
def ann : Conn := ⟨1, true⟩

/-- An empty object as the state of client 7. -/
def cursor : Bytes := [1, 7, 1, 2, 123, 125]

/-- The same state, and the beginning of another entry. -/
def cutOff : Bytes := [2, 7, 1, 2, 123, 125, 8, 1]

/-- Ann joins and sends a payload. -/
def sends (payload : Bytes) : List Input :=
  [⟨.command (.join ann), 0, []⟩, ⟨.command (.frame ann (writeAwareness payload)), 0, []⟩]

end Ghost

open Ghost

/-- Ann's cursor is shown, and it is Ann's. -/
theorem cursor_owned : ((Room.new {} 0).run {} (sends cursor)).aw.state 7 = some [123, 125] ∧
    ∀ n, ((Room.new {} 0).run {} ((sends cursor).take n)).Owned := by
  refine ⟨by decide +kernel, (cursors_owned_iff rfl rfl ?_).2 ⟨?_, ?_, trivial⟩⟩
  · simp [sends]
  · rintro - conn frame payload ⟨⟩
  · rintro - conn frame payload ⟨⟩ - hdec aw changed err happ
    have hcursor : decode (writeAwareness cursor) = .ok (.awareness cursor) := rfl
    obtain rfl : cursor = payload :=
      Message.awareness.inj (Except.ok.inj (hcursor.symm.trans hdec))
    have haccepted : ((((Room.new {} 0).run {} ((sends cursor).take 1)).aw.applyUpdate cursor
        0).2.2) = none := by decide +kernel
    cases haccepted.symm.trans (congrArg (fun p => p.2.2) happ)

/-- Ann is gone, but the cursor is still there. -/
theorem ghost_cursor : ((Room.new {} 0).run {} (sends cutOff)).conns = [] ∧
    ((Room.new {} 0).run {} (sends cutOff)).aw.state 7 = some [123, 125] := by
  decide +kernel

end YCollab.Room
