import YCollab.Crdt.History
import YCollab.Room.Turns

/-!
# What a turn does to the document and the log

A turn of the run loop applies updates to the document and hands updates to the writer; it never
takes anything back. `Onward` says so of two rooms, `turn_onward` of every turn. What becomes of
an update that a connected writer sends is `update_applied`.
-/

namespace YCollab.Room

open Lib0 Crdt Protocol

variable {cfg : Config} {r r' : Room}

/-- `r'` has the document of `r` with further updates applied, and the log of `r` with further
updates recorded. -/
structure Onward (r r' : Room) : Prop where
  doc : ∃ l : List Bytes, r'.doc = l.foldl Doc.receive r.doc
  recorded : r.recorded <+: r'.recorded

theorem Onward.of_eq (hd : r'.doc = r.doc) (hr : r'.recorded = r.recorded) : Onward r r' :=
  ⟨⟨[], hd⟩, hr ▸ List.prefix_rfl⟩

theorem Onward.refl (r : Room) : Onward r r := .of_eq rfl rfl

/-- **A turn takes nothing back**: it applies updates and records updates. -/
theorem turn_onward (r : Room) (i : Input) : Onward r (r.turn cfg i).room := by
  obtain ⟨hrec, hdoc | ⟨b, -, -, happly⟩⟩ | ⟨b, -, happly, hrec⟩ := turn_records cfg r i
  · exact .of_eq hdoc hrec
  · exact ⟨⟨[b], by simp [Doc.receive, happly]⟩, hrec ▸ List.prefix_rfl⟩
  · exact ⟨⟨[b], by simp [Doc.receive, happly]⟩, hrec ▸ List.prefix_append ..⟩

/-! ### Runs -/

/-- `r'` is `r` after it applied the updates `l` and recorded those of `l'`, in this order. -/
structure Fed (r r' : Room) (l l' : List Bytes) : Prop where
  doc : r'.doc = l.foldl Doc.receive r.doc
  recorded : r'.recorded = r.recorded ++ l'
  sublist : l'.Sublist l

theorem Fed.none (hd : r'.doc = r.doc) (hr : r'.recorded = r.recorded) : Fed r r' [] [] :=
  ⟨hd, by rw [hr, List.append_nil], .slnil⟩

theorem Fed.trans {r'' : Room} {l l' m m' : List Bytes} (h : Fed r r' l l')
    (h' : Fed r' r'' m m') : Fed r r'' (l ++ m) (l' ++ m') where
  doc := by rw [h'.doc, h.doc, List.foldl_append]
  recorded := by rw [h'.recorded, h.recorded, List.append_assoc]
  sublist := h.sublist.append h'.sublist

/-- A turn applies the update of its event, or nothing; what did not come over the bus is
recorded. -/
theorem turn_fed (cfg : Config) (r : Room) (i : Input) : ∃ l l',
    Fed r (if r.stopped then r else (r.turn cfg i).room) l l' ∧
      l.Sublist i.event.update.toList ∧ (i.event.isRemote = false → l' = l) := by
  split
  · exact ⟨[], [], .none rfl rfl, by simp, fun _ => rfl⟩
  obtain ⟨hrec, hdoc | ⟨b, hremote, hi, happly⟩⟩ | ⟨b, hi, happly, hrec⟩ := turn_records cfg r i
  · exact ⟨[], [], .none hdoc hrec, by simp, fun _ => rfl⟩
  · refine ⟨[b], [], ⟨?_, by simp [hrec], List.nil_sublist _⟩, by simp [hi], by simp [hremote]⟩
    simp [Doc.receive, happly]
  · exact ⟨[b], [b], ⟨by simp [Doc.receive, happly], hrec, .refl _⟩, by simp [hi], fun _ => rfl⟩

/-- **The document of a room is made of what it was sent.** In every run it is the document at the
start with updates applied that were sent, each once and in this order; its log has a part of those,
and all of them if nothing came over the bus. -/
theorem document_of_sent (cfg : Config) (r : Room) (inputs : List Input) : ∃ l l',
    Fed r (r.run cfg inputs) l l' ∧ l.Sublist (inputs.flatMap (·.event.update.toList)) ∧
      ((∀ i ∈ inputs, i.event.isRemote = false) → l' = l) := by
  induction inputs generalizing r with
  | nil => exact ⟨[], [], .none rfl rfl, by simp, fun _ => rfl⟩
  | cons i inputs ih =>
    obtain ⟨l, l', hl, hi, hall⟩ := turn_fed cfg r i
    obtain ⟨m, m', hm, hsent, hall'⟩ := ih (if r.stopped then r else (r.turn cfg i).room)
    refine ⟨l ++ m, l' ++ m', hl.trans hm, ?_, fun h => ?_⟩
    · rw [List.flatMap_cons]
      exact hi.append hsent
    · rw [hall (h i (by simp)), hall' fun j hj => h j (by simp [hj])]

/-- **What a connected writer sends**, if it applies, is in the document and in the log. -/
theorem Handler.update_applied {now : ℤ} {h : Handler} {conn : Conn} {update : Bytes} {doc : Doc}
    (hw : conn.canWrite = true) (happ : h.room.doc.applyUpdate update = .ok doc) :
    (h.update cfg now conn update).room.recorded = h.room.recorded ++ [update] ∧
      (h.update cfg now conn update).room.doc = h.room.doc.receive update := by
  unfold Handler.update
  rw [if_neg (by simp [hw]), happ]
  obtain ⟨l, -, hint⟩ := relayed_integrated doc cfg now h update (some conn)
  exact ⟨hint.recorded, by rw [hint.doc, Doc.receive, happ]⟩

end YCollab.Room
