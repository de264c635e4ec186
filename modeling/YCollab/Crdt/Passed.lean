import YCollab.Crdt.Diff
import YCollab.Crdt.RoundTrip
import YCollab.Crdt.Told

/-!
# What a document passes on

A document that was told units of a history passes on the units it has integrated: the update for a
peer carries exactly the units that the document has and the peer's state vector lacks, in items
that fit the history, and it names what the document knows to be deleted (`Told.pass`). It can be
written and read as long as the clocks involved stay below `2 ^ 31` (`Small`).
-/

namespace YCollab.Crdt

open Lib0

/-! ### Limits of a history -/

/-- Clocks below the greatest length that can be read, of clients that can be written, and fewer
clients than can be counted. -/
structure Small (B : ID → Prop) : Prop where
  clock : ∀ {x}, B x → x.clock < maxLen
  client : ∀ {x}, B x → x.client ≤ maxSafeInteger
  clients : ∃ cs : List ℕ, cs.length ≤ maxSafeInteger ∧ ∀ x, B x → x.client ∈ cs

section Small

variable {B : ID → Prop}

theorem length_keys_le {V : Type*} {cs : List ℕ} (hcs : cs.length ≤ maxSafeInteger)
    (m : SortedMap ℕ V) (h : ∀ c ∈ m.keys, c ∈ cs) : m.keys.length ≤ maxSafeInteger := by
  have hnodup : m.keys.Nodup := by
    have hdec : m.keys.Pairwise fun a b => b < a := List.pairwise_map.2 m.decreasing
    exact hdec.imp fun hlt => Nat.ne_of_gt hlt
  exact (List.subperm_of_subset hnodup h).length_le.trans hcs

theorem Canonical.length_le {rs : List DeleteRange} (h : Canonical rs) {a n : ℕ}
    (hlo : ∀ r ∈ rs, a ≤ r.clock) (hhi : ∀ r ∈ rs, r.clock ≤ n) : 2 * rs.length ≤ n + 2 - a := by
  induction rs generalizing a with
  | nil => exact Nat.zero_le _
  | cons r rs ih =>
    have hpos := h.pos r (List.mem_cons_self ..)
    have hstart := hlo r (List.mem_cons_self ..)
    have hend := hhi r (List.mem_cons_self ..)
    have hrest := ih h.tail (a := r.endClock + 1)
      (fun r' hr' => (List.pairwise_cons.1 h.apart).1 r' hr')
      fun r' hr' => hhi r' (List.mem_cons_of_mem _ hr')
    rw [List.length_cons]
    unfold DeleteRange.endClock at hrest
    omega

/-- What a delete set names that can be written and read: every run of clocks starts at one that can
be written, and has a length that can be read. -/
structure Printable (N : ID → Prop) : Prop where
  client : ∀ x, N x → x.client ≤ maxSafeInteger
  clients : ∃ cs : List ℕ, cs.length ≤ maxSafeInteger ∧ ∀ x, N x → x.client ∈ cs
  start : ∀ c k, N ⟨c, k⟩ → (∀ i, k = i + 1 → ¬N ⟨c, i⟩) → k ≤ maxSafeInteger
  run : ∀ c k, ¬∀ i ≤ maxLen, N ⟨c, k + i⟩

theorem Canonical.run_le {rs : List DeleteRange} (h : Canonical rs) {r : DeleteRange} (hr : r ∈ rs)
    {k n : ℕ} (hhi : k < r.endClock) (hrun : ∀ i ≤ n, Covers rs (k + i)) :
    k + n < r.endClock := by
  induction n with
  | zero => exact hhi
  | succ n ih =>
    have hprev := ih fun i hi => hrun i (hi.trans (Nat.le_succ n))
    refine Nat.lt_of_le_of_ne hprev fun heq => (h.not_covers hr).1 ?_
    rw [← heq]
    exact hrun (n + 1) le_rfl

namespace DeleteSet

variable {ds : DeleteSet}

theorem ranges_of_mem {c : ℕ} {rs : List DeleteRange} (h : (c, rs) ∈ ds.entries) :
    ds.ranges c = rs := by
  rw [DeleteSet.ranges, SortedMap.find?_eq_some.2 h]
  rfl

theorem Built.start_spec (h : ds.Built) {c : ℕ} {rs : List DeleteRange} (hp : (c, rs) ∈ ds.entries)
    {r : DeleteRange} (hr : r ∈ rs) : (∀ i < r.len, ds.Names ⟨c, r.clock + i⟩) ∧
      ∀ i, r.clock = i + 1 → ¬ds.Names ⟨c, i⟩ := by
  have hranges := ranges_of_mem hp
  have hcan := h.ranges c
  rw [hranges] at hcan
  unfold DeleteSet.Names
  simp only [hranges]
  exact ⟨fun i hi => ⟨r, hr, Nat.le_add_right .., Nat.add_lt_add_left hi _⟩, (hcan.not_covers hr).2⟩

/-- **A delete set can be written and read** exactly if what it names is printable. -/
theorem Built.safe_iff (h : ds.Built) : DeleteSet.Safe ds ↔ Printable ds.Names := by
  constructor
  · rintro ⟨hlen, hsafe⟩
    have hrange : ∀ c k, ds.Names ⟨c, k⟩ → ∃ rs r, (c, rs) ∈ ds.entries ∧ r ∈ rs ∧ r.clock ≤ k ∧
        k < r.endClock := by
      intro c k hx
      obtain ⟨⟨_, rs⟩, hp, rfl, r, hr, hlo, hhi⟩ := names_iff.1 hx
      exact ⟨rs, r, hp, hr, hlo, hhi⟩
    refine ⟨fun x hx => ?_, ⟨ds.keys, ?_, fun x hx => ?_⟩, fun c k hx hfirst => ?_,
      fun c k hall => ?_⟩
    · obtain ⟨rs, r, hp, -⟩ := hrange x.client x.clock hx
      exact (hsafe _ hp).1
    · rwa [SortedMap.keys, List.length_map]
    · obtain ⟨rs, r, hp, -⟩ := hrange x.client x.clock hx
      exact List.mem_map_of_mem hp
    · obtain ⟨rs, r, hp, hr, hlo, hhi⟩ := hrange c k hx
      rcases Nat.lt_or_eq_of_le hlo with hlt | rfl
      · -- the clock in front is in the same range
        refine absurd ?_ (hfirst (k - 1) (by omega))
        rw [DeleteSet.Names, ranges_of_mem hp]
        exact ⟨r, hr, by simp only; omega, by simp only; omega⟩
      · exact ((hsafe _ hp).2.2 r hr).1
    · obtain ⟨rs, r, hp, hr, hlo, hhi⟩ := hrange c k (by simpa using hall 0 (Nat.zero_le _))
      have hcan := h.ranges c
      have hlong := hcan.run_le (by rwa [ranges_of_mem hp]) hhi hall
      have hle := ((hsafe _ hp).2.2 r hr).2
      unfold DeleteRange.endClock at hlong
      omega
  · intro hN
    obtain ⟨cs, hlen, hcs⟩ := hN.clients
    have hfirst : ∀ {c rs}, (c, rs) ∈ ds.entries → ∀ r ∈ rs, ds.Names ⟨c, r.clock⟩ := by
      intro c rs hp r hr
      have hpos := (h c rs (SortedMap.find?_eq_some.2 hp)).2.pos r hr
      simpa using (h.start_spec hp hr).1 0 hpos
    have hstart : ∀ {c rs}, (c, rs) ∈ ds.entries → ∀ r ∈ rs, r.clock ≤ maxSafeInteger :=
      fun hp r hr => hN.start _ _ (hfirst hp r hr) (h.start_spec hp hr).2
    have hmem : ∀ {c rs}, (c, rs) ∈ ds.entries → ∃ r, r ∈ rs := fun hp =>
      List.exists_mem_of_ne_nil _ (h _ _ (SortedMap.find?_eq_some.2 hp)).1
    refine ⟨?_, ?_⟩
    · have hkeys := length_keys_le hlen ds fun c hc => ?_
      · rwa [SortedMap.keys, List.length_map] at hkeys
      obtain ⟨rs, hf⟩ := SortedMap.mem_keys.1 hc
      have hp := SortedMap.find?_eq_some.1 hf
      obtain ⟨r, hr⟩ := hmem hp
      exact hcs _ (hfirst hp r hr)
    · rintro ⟨c, rs⟩ hp
      obtain ⟨r₀, hr₀⟩ := hmem hp
      refine ⟨hN.client _ (hfirst hp r₀ hr₀), ?_, fun r hr => ⟨hstart hp r hr, ?_⟩⟩
      · have hcan := (h c rs (SortedMap.find?_eq_some.2 hp)).2
        have := hcan.length_le (a := 0) (fun _ _ => Nat.zero_le _) (hstart hp)
        have hmax : 2 ≤ maxSafeInteger := by decide
        simp only
        omega
      · refine Nat.le_of_not_lt fun hlong => hN.run c r.clock fun i hi => ?_
        exact (h.start_spec hp hr).1 i (hi.trans_lt hlong)

theorem Built.safe (h : ds.Built) (hB : Small B) (hnames : ∀ x, ds.Names x → B x) :
    DeleteSet.Safe ds := by
  obtain ⟨cs, hlen, hcs⟩ := hB.clients
  refine h.safe_iff.2 ⟨fun x hx => hB.client (hnames x hx),
    ⟨cs, hlen, fun x hx => hcs x (hnames x hx)⟩, fun c k hx _ => ?_, fun c k hall => ?_⟩
  · exact (hB.clock (hnames _ hx)).le.trans maxLen_le
  · have := hB.clock (hnames _ (hall maxLen le_rfl))
    simp only at this
    omega

end DeleteSet

/-- **The state vector can be written and read** exactly if the clocks can be written and the clients
counted. -/
theorem Doc.stateVector_safe_iff {d : Doc} (hg : d.store.Gapless)
    (hclient : ∀ c, 0 < d.state c → c ≤ maxSafeInteger) :
    StateVector.Safe d.stateVector ↔ (∀ c, d.state c ≤ maxSafeInteger) ∧
      ∃ cs : List ℕ, cs.length ≤ maxSafeInteger ∧ ∀ c, 0 < d.state c → c ∈ cs := by
  have hmem : ∀ p, p ∈ d.stateVector.entries ↔ 0 < d.state p.1 ∧ p.2 = d.state p.1 := by
    intro p
    rw [← SortedMap.find?_eq_some, Doc.stateVector, hg.stateVector_find?]
    split
    next h0 =>
      rw [Doc.state, h0]
      simp
    next hne =>
      have hpos : 0 < d.state p.1 := Nat.pos_of_ne_zero hne
      rw [Option.some.injEq, and_iff_right hpos]
      exact eq_comm
  constructor
  · rintro ⟨hlen, hsafe⟩
    refine ⟨fun c => ?_, d.stateVector.keys, ?_, fun c hc => ?_⟩
    · rcases Nat.eq_zero_or_pos (d.state c) with h0 | hpos
      · rw [h0]
        exact Nat.zero_le _
      · exact (hsafe ⟨c, d.state c⟩ ((hmem _).2 ⟨hpos, rfl⟩)).2
    · rwa [SortedMap.keys, List.length_map]
    · exact List.mem_map_of_mem ((hmem ⟨c, d.state c⟩).2 ⟨hc, rfl⟩)
  · rintro ⟨hstate, cs, hlen, hcs⟩
    refine ⟨?_, fun p hp => ?_⟩
    · have hkeys := length_keys_le hlen d.stateVector fun c hc => ?_
      · rwa [SortedMap.keys, List.length_map] at hkeys
      · obtain ⟨p, hp, rfl⟩ := List.mem_map.1 hc
        exact hcs _ ((hmem p).1 hp).1
    · obtain ⟨hpos, heq⟩ := (hmem p).1 hp
      exact ⟨hclient _ hpos, heq ▸ hstate p.1⟩

theorem Doc.length_keys_le_of_clients {d : Doc} (hg : d.store.Gapless)
    (h : ∃ cs : List ℕ, cs.length ≤ maxSafeInteger ∧ ∀ c, 0 < d.state c → c ∈ cs) :
    d.store.keys.length ≤ maxSafeInteger := by
  obtain ⟨cs, hlen, hcs⟩ := h
  refine length_keys_le hlen _ fun c hc => hcs c ?_
  obtain ⟨l, hf⟩ := SortedMap.mem_keys.1 hc
  rw [hg.find?_eq] at hf
  split at hf
  · cases hf
  · exact Nat.pos_of_ne_zero ‹_›

/-- What a document that holds small IDs sends can be read. -/
theorem Doc.Legible.sent_small {d : Doc} (h : d.Legible) (hg : d.store.Gapless) (hB : Small B)
    (hhas : ∀ x, d.Has x → B x) (hdel : ∀ x, d.pendingDeletes.Names x → B x) (sv : StateVector) :
    (d.stateAsUpdate sv).sent.Safe := by
  have hstate : ∀ c, d.state c ≤ maxLen := by
    intro c
    rcases Nat.eq_zero_or_pos (d.state c) with h0 | hpos
    · rw [h0]
      exact Nat.zero_le _
    · have hlast : d.state c - 1 < d.state c := by omega
      have := hB.clock (hhas ⟨c, d.state c - 1⟩ hlast)
      simp only at this
      omega
  obtain ⟨hbuilt, hnames⟩ := deleteSetForUpdate_spec d
  obtain ⟨cs, hlen, hcs⟩ := hB.clients
  refine h.sent_safe hg (fun c => (hstate c).trans maxLen_le)
    (length_keys_le_of_clients hg ⟨cs, hlen, fun c hpos => hcs ⟨c, 0⟩ (hhas _ hpos)⟩)
    (fun c id n hgc => ?_) (hbuilt.safe hB fun x hx => ?_) sv
  · have hend := (hg.run c).endClock_le_end hgc
    have hlen := hg.state_eq c
    have hle := hstate c
    simp only [Struct.endClock, Struct.len, Doc.state] at hend hle
    omega
  · rcases (hnames x).1 hx with hgone | hpend
    · exact hhas x (hgone.has hg)
    · exact hdel x hpend

end Small

/-! ### Items that fit -/

section Fits

variable {H : Shape} {it : Item} {k : ℕ}

theorem Content.lowAt_wired (c : Content) (i : ℕ) : c.wired.lowAt i = c.lowAt i := by
  cases c <;> rfl

theorem Content.isType_wired (c : Content) : c.wired.isType = c.isType := by cases c <;> rfl

theorem Content.isDeleted_wired (c : Content) : c.wired.isDeleted = c.isDeleted := by cases c <;> rfl

theorem Item.units_wired (it : Item) : it.wired.units = it.units := by
  rw [Item.units, Item.units, Item.len_wired]
  rfl

/-- What is read back of a stored item fits. -/
theorem Shape.FitsStored.wired (hf : H.FitsStored it) (hH : H.Lawful) : H.FitsWire it.wired where
  mem i hi := hf.mem i (it.len_wired ▸ hi)
  origin _ := hf.origin hf.pos
  follows i hi := hf.follows i (it.len_wired ▸ hi)
  right i hi := hf.right i (it.len_wired ▸ hi)
  low i hi := by
    rw [Item.wired, Content.lowAt_wired]
    exact hf.low i (it.len_wired ▸ hi)
  low_end _ := by
    rw [Item.len_wired]
    exact hf.low_end hf.pos
  type i hi := by
    rw [Item.wired, Content.isType_wired]
    exact hf.type i (it.len_wired ▸ hi)
  gone i hi := by
    rw [Item.wired, Content.isDeleted_wired]
    exact hf.gone i (it.len_wired ▸ hi)
  entry i hi hkey := by
    rw [Item.len_wired] at hi ⊢
    exact hf.entry i hi hkey
  parent p hp _ := by
    have habs : it.absent = true := by
      by_contra hne
      simp [Item.wired, hne] at hp
    have hinfo : it.parentInfo = p := by simpa [Item.wired, habs] using hp
    have hkey : it.wired.key = it.key := by
      unfold Item.key Item.wired
      cases it.hasParentSub <;> simp [habs]
    have hparent : it.parentInfo.typeID = (H.list it.id).parent := by
      have := hf.parent
      unfold Item.parentInfo
      rw [this]
      cases (H.list it.id).parent <;> rfl
    rw [hkey, ← hinfo, hparent, hf.key]
    rfl
  alone ho hr := by
    have habs : it.absent = true := by
      have ho : it.origin = none := ho
      have hr : it.rightOrigin = none := hr
      simp [Item.absent, ho, hr]
    simp [Item.wired, habs]
  before j hj := hH.closed (hf.mem 0 hf.pos) (Shape.past_of_lt hj)

theorem Shape.FitsStored.dropped (hf : H.FitsStored it) (hH : H.Lawful) (hk : k < it.len)
    (hlow : ¬H.low (it.unit k)) :
    H.FitsStored (it.dropped k) ∧ (it.dropped k).len = it.len - k := by
  rcases Nat.eq_zero_or_pos k with rfl | hpos
  · have heq : it.dropped 0 = it := by simp [Item.dropped, Item.writeOrigin]
    rw [heq]
    exact ⟨hf, rfl⟩
  · obtain ⟨h, t, hs, hcut⟩ := hf.splice hpos hk hlow
    have heq : it.dropped k = it.tail k t := by
      simp only [Item.dropped, Item.writeOrigin, hpos, if_true, Content.dropped, hs, Item.tail,
        Item.unit]
    rw [heq]
    exact ⟨hf.tail hH hcut hpos hk, Item.len_tail hcut⟩

theorem Item.Safe.decoded_wired (h : it.Safe) : it.wired.Decoded where
  toSafe := h.wired
  fresh := rfl
  alone := by
    unfold Item.wired Item.absent
    cases it.origin <;> cases it.rightOrigin <;> simp
  sub hs := by
    have hs : (it.absent && it.hasParentSub) = false := hs
    simp [Item.wired, hs]

end Fits

theorem Update.Safe.allDecoded {u : Update} (h : u.Safe) : Doc.AllDecoded u.wired.structs := by
  intro st hst
  obtain ⟨blk, hblk, hst⟩ := Update.mem_structs.1 hst
  obtain ⟨blk, hmem, rfl⟩ := List.mem_map.1 hblk
  have hsafe := h.blocks blk ((Update.sortBlocks_perm _).mem_iff.1 hmem)
  obtain ⟨st, hst₀, rfl⟩ := List.mem_map.1 hst
  have hst := hsafe.structs st hst₀
  refine ⟨⟨hst.wired, fun it heq => ?_⟩, ?_⟩
  · cases st with
    | item it₀ =>
      obtain rfl := Struct.item.inj heq
      exact Item.Safe.decoded_wired hst
    | gc id n => cases heq
    | skip id n => cases heq
  · rw [Struct.id_wired, hsafe.contig.client_eq hst₀]
    exact hsafe.client

theorem Doc.neat_stateAsUpdate (d : Doc) (sv : StateVector) :
    (d.stateAsUpdate sv).sent.wired.Neat := by
  have hperm := ((Update.sortBlocks_perm (d.stateAsUpdate sv).sent.clients).map
    ClientBlock.client).nodup_iff
  have hnodup := (d.stateAsUpdate_clients sv).imp fun hlt => Nat.ne_of_gt hlt
  simp only [Update.Neat, Update.wired, List.map_map]
  refine hperm.2 ?_
  simp only [Update.sent, List.map_map]
  exact hnodup

/-! ### Passing on -/

theorem exists_items {P : Item → Prop} {l : List Struct} (h : ∀ st ∈ l, ∃ it, st = .item it ∧ P it) :
    ∃ its : List Item, l = its.map .item ∧ ∀ it ∈ its, P it := by
  induction l with
  | nil => exact ⟨[], rfl, by simp⟩
  | cons st l ih =>
    obtain ⟨it, rfl, hit⟩ := h st (List.mem_cons_self ..)
    obtain ⟨its, rfl, hits⟩ := ih fun st hst => h st (List.mem_cons_of_mem _ hst)
    exact ⟨it :: its, rfl, List.forall_mem_cons.2 ⟨hit, hits⟩⟩

namespace Told

variable {H : Shape} {T B : ID → Prop} {d : Doc} {w : List ID} {sv : StateVector} {x : ID}

/-- The block a peer is sent, with its first item cut where the peer's clock is. -/
theorem sent_block (h : Told H T d w) (hH : H.Lawful) {c : ℕ} (hlow : ¬H.low ⟨c, sv.get c⟩)
    (hlt : sv.get c < d.state c) : ∃ l : List Item,
      (d.blockFrom c (sv.get c)).map ClientBlock.sent = some ⟨c, sv.get c, l.map .item⟩ ∧
      Contig c (sv.get c) (l.map .item) ∧ (∀ it ∈ l, H.FitsStored it) ∧
      ∀ x : ID, x.client = c → ((∃ it ∈ l, x ∈ it.units) ↔ d.Has x ∧ sv.get c ≤ x.clock) := by
  obtain ⟨ch, hr⟩ := h.sound.rep
  have hg := h.sound.gapless
  obtain ⟨A, st, B, hs, hlo, hhi, heq⟩ := Doc.blockFrom_eq hg hlt
  have hrun := hs ▸ hg.run c
  obtain ⟨-, hid, -, -, hB⟩ := hrun.split
  rw [Nat.zero_add] at hid hB
  obtain ⟨it, rfl, hf⟩ := hr.items c st (by simp [hs])
  have hids : it.id = ⟨c, lengthOf A⟩ := hid
  have hclock : it.id.clock = lengthOf A := congrArg ID.clock hids
  rw [Struct.endClock_item] at hhi
  rw [Struct.id_item] at hlo
  have hunit : it.unit (sv.get c - it.id.clock) = ⟨c, sv.get c⟩ :=
    ID.ext (show it.id.client = c by rw [hids]) (Nat.add_sub_cancel' hlo)
  obtain ⟨hfd, hlen⟩ := hf.dropped hH (k := sv.get c - it.id.clock) (by omega) (hunit ▸ hlow)
  have hend : sv.get c + (it.dropped (sv.get c - it.id.clock)).len = it.id.clock + it.len := by
    omega
  obtain ⟨its, rfl, hits⟩ := exists_items (l := B) fun st hst => hr.items c st (by simp [hs, hst])
  have hcontig : Contig c (sv.get c)
      ((it.dropped (sv.get c - it.id.clock) :: its).map .item) := by
    refine ⟨hunit, ?_⟩
    rw [Struct.len_item, hend, hclock]
    exact hB.contig
  refine ⟨it.dropped (sv.get c - it.id.clock) :: its, ?_, hcontig,
    List.forall_mem_cons.2 ⟨hfd, hits⟩, fun x hx => ⟨?_, ?_⟩⟩
  · rw [heq]
    exact congrArg (fun l => some (ClientBlock.mk c (sv.get c) l)) (renumber_eq hcontig)
  · rintro ⟨it', hit', hxu⟩
    rcases List.mem_cons.1 hit' with rfl | hit'
    · obtain ⟨-, h1, h2⟩ := Item.mem_units.1 hxu
      have hid' : (it.dropped (sv.get c - it.id.clock)).id.clock = sv.get c :=
        congrArg ID.clock hunit
      rw [hid'] at h1 h2
      have hst : d.Stored it := Doc.Stored.of_mem hg (c := c) (by simp [hs])
      refine ⟨hst.has hg (Item.mem_units.2 ⟨?_, by omega, by omega⟩), h1⟩
      rw [hx, hids]
    · have hm : .item it' ∈ its.map Struct.item := List.mem_map_of_mem hit'
      have hst : d.Stored it' := Doc.Stored.of_mem hg (c := c) (by simp [hs, hit'])
      have hle := hrun.le_clock hm
      rw [Struct.endClock_item, Struct.id_item] at hle
      have := (Item.mem_units.1 hxu).2.1
      exact ⟨hst.has hg hxu, by omega⟩
  · rintro ⟨hhas, hle⟩
    obtain ⟨it', hst, hxu⟩ := hr.exists_stored hhas
    obtain ⟨hc, h1, h2⟩ := Item.mem_units.1 hxu
    have hst : .item it' ∈ d.store.structs c := by rw [← hx, hc]; exact hst
    rw [hs] at hst
    rcases List.mem_append.1 hst with hm | hm
    · have hbefore := hrun.endClock_le hm
      rw [Struct.endClock_item, Struct.id_item] at hbefore
      omega
    · rcases List.mem_cons.1 hm with heq' | hm
      · obtain rfl := Struct.item.inj heq'
        refine ⟨_, List.mem_cons_self .., Item.mem_units.2 ⟨hc, ?_, ?_⟩⟩
        · rw [show (it'.dropped (sv.get c - it'.id.clock)).id = _ from hunit]
          exact hle
        · rw [show (it'.dropped (sv.get c - it'.id.clock)).id = _ from hunit]
          simp only
          omega
      · obtain ⟨it'', hit'', heq'⟩ := List.mem_map.1 hm
        obtain rfl := Struct.item.inj heq'
        exact ⟨it'', List.mem_cons_of_mem _ hit'', hxu⟩

end Told

/-- The update is what a document passes on to the holder of `sv`. -/
structure Update.Passes (u : Update) (H : Shape) (d : Doc) (sv : StateVector) : Prop where
  fits : u.FitsIn H
  decoded : Doc.AllDecoded u.structs
  units : ∀ x, u.Units x ↔ d.Has x ∧ sv.get x.client ≤ x.clock
  deletes : u.deletes = d.deleteSetForUpdate

namespace Told

variable {H : Shape} {T B : ID → Prop} {d : Doc} {w : List ID} {sv : StateVector} {x : ID}

/-- **What a document passes on** is written, read back, and carries exactly the units that it has
and `sv` lacks. -/
theorem pass (h : Told H T d w) (hH : H.Lawful) (hl : d.Legible) (hB : Small B)
    (hhas : ∀ x, d.Has x → B x) (hdel : ∀ x, d.pendingDeletes.Names x → B x)
    (hsv : ∀ c, ¬H.low ⟨c, sv.get c⟩) :
    ∃ b u, d.encodeStateAsUpdate sv = .ok b ∧ decodeUpdate b = .ok u ∧ u.Passes H d sv := by
  have hg := h.sound.gapless
  have hsafe := hl.sent_small hg hB hhas hdel sv
  refine ⟨_, _, ?_, decodeUpdate_enc hsafe, ?_⟩
  · rw [Doc.encodeStateAsUpdate, ← Update.encode_sent, Update.encode_eq hsafe.printed]
  have hblock : ∀ blk ∈ (d.stateAsUpdate sv).sent.wired.clients, ∃ c, sv.get c < d.state c ∧
      ∃ l : List Item, blk = (⟨c, sv.get c, l.map .item⟩ : ClientBlock).wired ∧
        Contig c (sv.get c) (l.map .item) ∧ (∀ it ∈ l, H.FitsStored it) ∧
        ∀ x : ID, x.client = c → ((∃ it ∈ l, x ∈ it.units) ↔ d.Has x ∧ sv.get c ≤ x.clock) := by
    intro blk hblk
    obtain ⟨blk, hmem, rfl⟩ := List.mem_map.1 hblk
    obtain ⟨c, hlt, hblk⟩ := (Doc.mem_sent hg).1 ((Update.sortBlocks_perm _).mem_iff.1 hmem)
    obtain ⟨l, heq, hl⟩ := h.sent_block hH (hsv c) hlt
    obtain rfl := Option.some.inj (hblk.symm.trans heq)
    exact ⟨c, hlt, l, rfl, hl⟩
  refine ⟨⟨?_, ?_, ?_⟩, ?_, ?_, rfl⟩
  · exact Doc.neat_stateAsUpdate d sv
  · intro st hst
    obtain ⟨blk, hblk, hst⟩ := Update.mem_structs.1 hst
    obtain ⟨c, -, l, rfl, -, hfits, -⟩ := hblock blk hblk
    simp only [ClientBlock.wired, List.map_map, List.mem_map] at hst
    obtain ⟨it, hit, rfl⟩ := hst
    exact ⟨it.wired, rfl, (hfits it hit).wired hH⟩
  · intro blk hblk
    obtain ⟨c, -, l, rfl, hcontig, -⟩ := hblock blk hblk
    exact ⟨sv.get c, hcontig.wired⟩
  · exact hsafe.allDecoded
  · intro x
    constructor
    · rintro ⟨it, hit, hx⟩
      obtain ⟨blk, hblk, hit⟩ := Update.mem_structs.1 hit
      obtain ⟨c, -, l, rfl, hcontig, -, hunits⟩ := hblock blk hblk
      simp only [ClientBlock.wired, List.map_map, List.mem_map] at hit
      obtain ⟨it₀, hit₀, heq⟩ := hit
      obtain rfl := Struct.item.inj heq
      rw [Item.units_wired] at hx
      have hc : x.client = c := (Item.mem_units.1 hx).1.trans
        (hcontig.client_eq (List.mem_map_of_mem hit₀))
      rw [hc]
      exact (hunits x hc).1 ⟨it₀, hit₀, hx⟩
    · rintro ⟨hx, hle⟩
      have hlt : sv.get x.client < d.state x.client := hle.trans_lt hx
      obtain ⟨l, heq, -, -, hunits⟩ := h.sent_block hH (hsv x.client) hlt
      obtain ⟨it, hit, hxu⟩ := (hunits x rfl).2 ⟨hx, hle⟩
      refine ⟨it.wired, Update.mem_structs.2 ⟨_, List.mem_map_of_mem
        ((Update.sortBlocks_perm _).mem_iff.2 ((Doc.mem_sent hg).2 ⟨_, hlt, heq⟩)), ?_⟩, ?_⟩
      · simp only [ClientBlock.wired, List.map_map, List.mem_map]
        exact ⟨it, hit, rfl⟩
      · rw [Item.units_wired]
        exact hxu

end Told

end YCollab.Crdt
