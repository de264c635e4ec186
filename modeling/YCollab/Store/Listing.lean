import Mathlib.Data.List.Lex
import Mathlib.Data.List.Sort
import Mathlib.Data.Prod.Lex
import YCollab.Store.Uuid

/-!
# Listing documents

`internal/store/list.go` and `listDocuments` of `cmd/server/documents.go`: the documents come in
pages, ordered by name and id, and each page says from where the next one goes on. What goes on is a
text, the name and the id with a slash between them (`Cursor.string`), and it is read back by cutting
at the first slash (`parseCursor`).

The gateway refuses names with a slash, and the comment on `Cursor.String` relies on it. The
administrative routes take a path segment with its escapes decoded, so a document can be created
under a name with a slash in it; a page that ends at one has a next page that cannot be asked for.
`listing_complete_iff` says that this is all that goes wrong.

The order of the database on names is that of `collate`, which may be any. A row has the columns that
a listing passes on (`α`): the time of the last change and the sizes.
-/

namespace YCollab.Store

/-! ### Cursors -/

/-- The byte between the name and the id. -/
def slash : UInt8 := 0x2f

/-- `Cursor`: the position to resume a listing from. -/
structure Cursor where
  name : Bytes := []
  id : UUID := nilUUID
  deriving DecidableEq

/-- `Cursor.String`. -/
def Cursor.string (c : Cursor) : Bytes := c.name ++ slash :: c.id.string

/-- `strings.Cut`, at the first byte that is `sep`. -/
def cut (sep : UInt8) : Bytes → Option (Bytes × Bytes)
  | [] => none
  | c :: s => if c = sep then some ([], s) else (cut sep s).map fun p => (c :: p.1, p.2)

/-- `ParseCursor`. -/
def parseCursor (s : Bytes) : Option Cursor := do
  let (name, rest) ← cut slash s
  let id ← parseUUID rest
  pure ⟨name, id⟩

theorem lower_hexEncode (b : Bytes) : lower (hexEncode b) = hexEncode b := by
  have hdigit : ∀ x : Fin 16, lowerHex (hexDigit x.1) = hexDigit x.1 := by decide
  induction b with
  | nil => rfl
  | cons x b ih =>
    have hx := x.toNat_lt
    rw [hexEncode_cons, lower_cons, lower_cons, ih, hdigit ⟨x.toNat / 16, by omega⟩,
      hdigit ⟨x.toNat % 16, by omega⟩]

theorem parseUUID_string (u : UUID) : parseUUID u.string = some u := by
  have hdash : lowerHex 0x2d = 0x2d := by decide
  rw [parseUUID_eq_some_iff]
  simp only [UUID.string, groupText, lower_append, lower_cons, lower_hexEncode, hdash]

theorem parseUUID_of_length {s : Bytes} (h : s.length ≠ 36) : parseUUID s = none := by
  by_contra hne
  obtain ⟨u, hu⟩ := Option.ne_none_iff_exists'.1 hne
  have hlen := congrArg List.length (parseUUID_eq_some_iff.1 hu)
  rw [lower_length, UUID.string, groupText_length u.size] at hlen
  exact h hlen

theorem cut_of_not_mem {sep : UInt8} {s : Bytes} (t : Bytes) (h : sep ∉ s) :
    cut sep (s ++ sep :: t) = some (s, t) := by
  induction s with
  | nil => simp [cut]
  | cons c s ih =>
    rw [List.mem_cons, not_or] at h
    simp [cut, Ne.symm h.1, ih h.2]

theorem cut_of_mem {sep : UInt8} {s : Bytes} (t : Bytes) (h : sep ∈ s) :
    ∃ a rest, cut sep (s ++ t) = some (a, rest) ∧ t.length ≤ rest.length := by
  induction s with
  | nil => cases h
  | cons c s ih =>
    by_cases hc : c = sep
    · exact ⟨[], s ++ t, by simp [cut, hc], by simp⟩
    · obtain ⟨a, rest, hcut, hlen⟩ := ih ((List.mem_cons.1 h).resolve_left (Ne.symm hc))
      exact ⟨c :: a, rest, by simp [cut, hc, hcut], hlen⟩

theorem parseCursor_string (c : Cursor) :
    parseCursor c.string = if slash ∈ c.name then none else some c := by
  split
  next hmem =>
    obtain ⟨a, rest, hcut, hlen⟩ := cut_of_mem (slash :: c.id.string) hmem
    rw [List.length_cons, UUID.string, groupText_length c.id.size] at hlen
    simp only [parseCursor, Cursor.string, hcut, Option.bind_eq_bind, Option.bind_some,
      parseUUID_of_length (s := rest) (by omega), Option.bind_none]
  next hnot =>
    simp only [parseCursor, Cursor.string, cut_of_not_mem _ hnot, Option.bind_eq_bind,
      Option.bind_some, parseUUID_string, Option.pure_def]

theorem Cursor.string_ne_nil (c : Cursor) : c.string ≠ [] := by simp [Cursor.string]

/-! ### Names -/

/-- The name that the gateway takes a path for: the whole of it, without a slash. -/
def gatewayName (path : Bytes) : Option Bytes :=
  let name := ((path.dropWhile (· = slash)).reverse.dropWhile (· = slash)).reverse
  if name = [] ∨ slash ∈ name then none else some name

/-- The name that the administrative routes take a segment of a path for, which has its escapes
decoded: any but the empty one. -/
def adminName (segment : Bytes) : Option Bytes := if segment = [] then none else some segment

/-! ### Pages -/

/-- A row as it is listed; `columns` is what a listing passes on. -/
structure Listing (α : Type) where
  id : UUID
  name : Bytes
  owner : UUID
  columns : α
  deriving DecidableEq

/-- The cursor behind a document. -/
def Listing.cursor {α : Type} (d : Listing α) : Cursor := ⟨d.name, d.id⟩

/-- `ListRequest`. -/
structure ListRequest where
  owner : UUID := nilUUID
  allOwners : Bool := false
  after : Cursor := {}
  limit : ℤ := 0

/-- `ListPage`; `next` is empty when there is no other page. -/
structure ListPage (α : Type) where
  documents : List (Listing α)
  next : Bytes := []
  deriving DecidableEq

/-- The number of documents on a page: `DefaultListLimit` if none is asked for, and at most
`MaxListLimit`. -/
def pageSize (limit : ℤ) : ℕ := if limit ≤ 0 then 100 else if limit > 1000 then 1000 else limit.toNat

section

variable {α N : Type} [LinearOrder N] (collate : Bytes → N) (sha1 : Sha1)

/-- Where a document stands: by name, and by id where names are the same. -/
def Cursor.position (c : Cursor) : N ×ₗ List ℕ := toLex (collate c.name, c.id.bytes.map UInt8.toNat)

/-- The order of a listing. -/
def Listing.Le (d d' : Listing α) : Prop := d.cursor.position collate ≤ d'.cursor.position collate

instance : DecidableRel (@Listing.Le α N _ collate) := fun d d' =>
  inferInstanceAs (Decidable (d.cursor.position collate ≤ d'.cursor.position collate))

/-- `Store.List`. -/
def list (rows : List (Listing α)) (req : ListRequest) : ListPage α :=
  let limit := pageSize req.limit
  let found := ((rows.filter fun d => (req.allOwners ∨ d.owner = req.owner) ∧
    req.after.position collate < d.cursor.position collate).insertionSort
      (Listing.Le collate)).take (limit + 1)
  if limit < found.length then
    ⟨found.take limit, ((found[limit - 1]?).map (·.cursor.string)).getD []⟩
  else ⟨found, []⟩

/-- Why a list is refused. -/
inductive ListErr where
  /-- "malformed after cursor" -/
  | badCursor
  /-- "limit must be a positive number" -/
  | badLimit
  deriving DecidableEq

/-- `listDocuments`, with the parameters `owner`, `after` and `limit` as far as they are given. -/
def listDocuments (rows : List (Listing α)) (owner : Option Bytes) (after : Bytes)
    (limit : Option ℤ) : Except ListErr (ListPage α) :=
  let req : ListRequest :=
    match owner with
    | none => { allOwners := true }
    | some tenant => { owner := ownerID sha1 tenant }
  match (if after = [] then some {} else parseCursor after) with
  | none => .error .badCursor
  | some cursor =>
    match limit with
    | none => .ok (list collate rows { req with after := cursor })
    | some limit =>
      if limit ≤ 0 then .error .badLimit
      else .ok (list collate rows { req with after := cursor, limit })

/-- What a caller gets that asks for page after page until there is no next one, if `fuel` pages are
enough. -/
def follow (rows : List (Listing α)) (owner : Option Bytes) (limit : ℤ) :
    ℕ → Bytes → Option (Except ListErr (List (Listing α)))
  | 0, _ => none
  | fuel + 1, after =>
    match listDocuments collate sha1 rows owner after (some limit) with
    | .error err => some (.error err)
    | .ok page =>
      if page.next = [] then some (.ok page.documents)
      else (follow rows owner limit fuel page.next).map (·.map (page.documents ++ ·))

/-! ### What is to be listed -/

/-- The documents that the owner filter lets through. -/
def matching (rows : List (Listing α)) (owner : Option Bytes) : List (Listing α) :=
  rows.filter fun d => owner.all fun tenant => d.owner = ownerID sha1 tenant

/-- All of them, by name and id. -/
def inOrder (rows : List (Listing α)) (owner : Option Bytes) : List (Listing α) :=
  (matching sha1 rows owner).insertionSort (Listing.Le collate)

/-- No page but the last ends at a document whose name has a slash in it. -/
def Resumable (size : ℕ) (l : List (Listing α)) : Prop :=
  ∀ k d, (k + 1) * size < l.length → l[(k + 1) * size - 1]? = some d → slash ∉ d.name

variable {collate sha1} {rows l rest : List (Listing α)} {owner : Option Bytes} {limit : ℤ}
  {c : Cursor} {size : ℕ}

/-- The documents stand one after the other. -/
def Ascending (collate : Bytes → N) (l : List (Listing α)) : Prop :=
  l.Pairwise fun d d' => d.cursor.position collate < d'.cursor.position collate

instance : Std.Total (@Listing.Le α N _ collate) := ⟨fun _ _ => le_total ..⟩

instance : IsTrans (Listing α) (Listing.Le collate) := ⟨fun _ _ _ => le_trans⟩

theorem ascending_insertionSort (hids : (l.map Listing.id).Nodup) :
    Ascending collate (l.insertionSort (Listing.Le collate)) := by
  have hperm : (l.insertionSort (Listing.Le collate)).Perm l := List.perm_insertionSort ..
  have hnodup : ((l.insertionSort (Listing.Le collate)).map Listing.id).Nodup :=
    (hperm.map _).nodup_iff.2 hids
  have hne := List.pairwise_map.1 hnodup
  refine ((List.pairwise_insertionSort (Listing.Le collate) l).and hne).imp ?_
  rintro d d' ⟨hle, hid⟩
  refine lt_of_le_of_ne hle fun heq => hid (UUID.ext ?_)
  have hbytes : d.id.bytes.map UInt8.toNat = d'.id.bytes.map UInt8.toNat :=
    congrArg (fun p => (ofLex p).2) heq
  exact List.map_injective_iff.2 (fun _ _ => UInt8.toNat_inj.1) hbytes

theorem insertionSort_filter (hids : (l.map Listing.id).Nodup) (p : Listing α → Bool) :
    (l.filter p).insertionSort (Listing.Le collate) =
      (l.insertionSort (Listing.Le collate)).filter p := by
  have hsub : ((l.filter p).map Listing.id).Nodup := (List.filter_sublist.map _).nodup hids
  have hperm : ((l.filter p).insertionSort (Listing.Le collate)).Perm
      ((l.insertionSort (Listing.Le collate)).filter p) :=
    (List.perm_insertionSort ..).trans ((List.perm_insertionSort ..).filter p).symm
  have hleft : Ascending collate ((l.filter p).insertionSort (Listing.Le collate)) :=
    ascending_insertionSort hsub
  have hright : Ascending collate ((l.insertionSort (Listing.Le collate)).filter p) :=
    List.Pairwise.filter p (ascending_insertionSort hids)
  unfold Ascending at hleft hright
  exact hperm.eq_of_pairwise (fun d d' _ _ hlt hlt' => absurd hlt hlt'.asymm) hleft hright

theorem filter_gt_of_ascending (h : Ascending collate l) {d : Listing α} (hsize : size ≠ 0)
    (hd : l[size - 1]? = some d) :
    (l.filter fun x => d.cursor.position collate < x.cursor.position collate) = l.drop size := by
  obtain ⟨n, rfl⟩ := Nat.exists_eq_succ_of_ne_zero hsize
  induction l generalizing n with
  | nil => simp at hd
  | cons x l ih =>
    obtain ⟨hx, hl⟩ := List.pairwise_cons.1 h
    cases n with
    | zero =>
      obtain rfl : x = d := by simpa using hd
      rw [List.filter_cons_of_neg (by simp)]
      exact List.filter_eq_self.2 fun y hy => by simpa using hx y hy
    | succ n =>
      have hd : l[n]? = some d := by simpa using hd
      have hlt := hx d (List.mem_of_getElem? hd)
      rw [List.filter_cons_of_neg (by simpa using hlt.le)]
      exact ih hl n (Nat.succ_ne_zero n) (by simpa using hd)

/-- The first page ends well, and so do the others. -/
theorem resumable_iff : Resumable size l ↔
    (size < l.length → ∀ d, l[size - 1]? = some d → slash ∉ d.name) ∧
      Resumable size (l.drop size) := by
  have hindex : ∀ k, (k + 1 + 1) * size = size + (k + 1) * size ∧ size ≤ (k + 1) * size :=
    fun k => ⟨by rw [Nat.succ_mul, Nat.add_comm], Nat.le_mul_of_pos_left _ (Nat.succ_pos k)⟩
  constructor
  · intro h
    refine ⟨fun hlt d hd => h 0 d (by simpa using hlt) (by simpa using hd), fun k d hk hd => ?_⟩
    obtain ⟨hsucc, hle⟩ := hindex k
    rw [List.length_drop] at hk
    rw [List.getElem?_drop] at hd
    refine h (k + 1) d (by omega) ?_
    rw [← hd, hsucc]
    congr 1
    omega
  · rintro ⟨hfirst, hrest⟩ k d hk hd
    cases k with
    | zero => exact hfirst (by simpa using hk) d (by simpa using hd)
    | succ k =>
      obtain ⟨hsucc, hle⟩ := hindex k
      refine hrest k d (by rw [List.length_drop]; omega) ?_
      rw [List.getElem?_drop, ← hd, hsucc]
      congr 1
      omega

/-! ### Following the pages -/

/-- The page that a list of documents begins with. -/
def firstPage (size : ℕ) (l : List (Listing α)) : ListPage α :=
  if size < l.length then ⟨l.take size, ((l[size - 1]?).map (·.cursor.string)).getD []⟩ else ⟨l, []⟩

theorem list_eq_firstPage (rows : List (Listing α)) (req : ListRequest) :
    list collate rows req = firstPage (pageSize req.limit)
      ((rows.filter fun d => (req.allOwners ∨ d.owner = req.owner) ∧
        req.after.position collate < d.cursor.position collate).insertionSort
          (Listing.Le collate)) := by
  have hpos : pageSize req.limit ≠ 0 := by
    unfold pageSize
    split_ifs <;> omega
  unfold list firstPage
  simp only [List.length_take]
  split
  next hmore =>
    rw [if_pos (by omega), List.take_take, List.getElem?_take_of_lt (by omega), min_eq_left]
    omega
  next hlast => rw [if_neg (by omega), List.take_of_length_le (by omega)]

theorem listDocuments_eq (hids : (rows.map Listing.id).Nodup) (hlimit : 0 < limit) {after : Bytes}
    (hafter : (if after = [] then some {} else parseCursor after) = some c) :
    listDocuments collate sha1 rows owner after (some limit) =
      .ok (firstPage (pageSize limit) ((inOrder collate sha1 rows owner).filter
        fun d => c.position collate < d.cursor.position collate)) := by
  have hmatching : ((matching sha1 rows owner).map Listing.id).Nodup :=
    (List.filter_sublist.map _).nodup hids
  unfold inOrder
  rw [← insertionSort_filter hmatching, matching, List.filter_filter]
  unfold listDocuments
  rw [hafter]
  simp only [not_le.2 hlimit, if_false, list_eq_firstPage]
  cases owner with
  | none => simp
  | some tenant => simp [Bool.and_comm]

theorem pageSize_pos (limit : ℤ) : pageSize limit ≠ 0 := by
  unfold pageSize
  split_ifs <;> omega

theorem resumable_of_length_le (h : l.length ≤ size) : Resumable size l := by
  intro k d hk
  have : size ≤ (k + 1) * size := Nat.le_mul_of_pos_left _ (Nat.succ_pos k)
  omega

theorem filter_inOrder (hids : (rows.map Listing.id).Nodup)
    (hrest : (inOrder collate sha1 rows owner).filter
      (fun d => c.position collate < d.cursor.position collate) = rest)
    {d : Listing α} (hsize : size ≠ 0) (hd : rest[size - 1]? = some d) :
    (inOrder collate sha1 rows owner).filter
      (fun x => d.cursor.position collate < x.cursor.position collate) = rest.drop size := by
  have hascending : Ascending collate (inOrder collate sha1 rows owner) :=
    ascending_insertionSort ((List.filter_sublist.map _).nodup hids)
  have hd' : d ∈ rest := List.mem_of_getElem? hd
  subst hrest
  have hlt : c.position collate < d.cursor.position collate := by
    simpa using (List.mem_filter.1 hd').2
  rw [← filter_gt_of_ascending (List.Pairwise.filter _ hascending) hsize hd, List.filter_filter]
  refine List.filter_congr fun x _ => ?_
  by_cases hx : d.cursor.position collate < x.cursor.position collate
  · simp [hx, hlt.trans hx]
  · simp [hx]

theorem follow_refused {after : Bytes} {fuel : ℕ}
    (hafter : (if after = [] then some {} else parseCursor after) = none) :
    follow collate sha1 rows owner limit (fuel + 1) after = some (.error .badCursor) := by
  unfold follow listDocuments
  rw [hafter]

/-- **The pages from a cursor on** are the documents behind it, if every page but the last ends at a
name without a slash; otherwise the caller is refused. -/
theorem follow_eq (hids : (rows.map Listing.id).Nodup) (hlimit : 0 < limit) {after : Bytes}
    {fuel : ℕ} (hafter : (if after = [] then some {} else parseCursor after) = some c)
    (hrest : (inOrder collate sha1 rows owner).filter
      (fun d => c.position collate < d.cursor.position collate) = rest)
    (hfuel : rest.length < fuel) :
    (Resumable (pageSize limit) rest →
      follow collate sha1 rows owner limit fuel after = some (.ok rest)) ∧
    (¬Resumable (pageSize limit) rest →
      follow collate sha1 rows owner limit fuel after = some (.error .badCursor)) := by
  have hsize := pageSize_pos limit
  induction fuel generalizing after c rest with
  | zero => omega
  | succ fuel ih =>
    unfold follow
    rw [listDocuments_eq hids hlimit hafter, hrest]
    unfold firstPage
    split
    next page heq => cases heq
    next page heq =>
      obtain rfl := Except.ok.inj heq
      by_cases hmore : pageSize limit < rest.length
      · obtain ⟨d, hd⟩ : ∃ d, rest[pageSize limit - 1]? = some d :=
          ⟨_, List.getElem?_eq_getElem (by omega)⟩
        simp only [hmore, if_true, hd, Option.map_some, Option.getD_some, d.cursor.string_ne_nil,
          if_false]
        have hcursor : (if d.cursor.string = [] then some {} else parseCursor d.cursor.string) =
            if slash ∈ d.name then none else some d.cursor := by
          rw [if_neg d.cursor.string_ne_nil, parseCursor_string]
          rfl
        by_cases hslash : slash ∈ d.name
        · -- the next page cannot be asked for
          have hnot : ¬Resumable (pageSize limit) rest := fun hres =>
            (resumable_iff.1 hres).1 hmore d hd hslash
          obtain ⟨n, rfl⟩ : ∃ n, fuel = n + 1 := ⟨fuel - 1, by omega⟩
          rw [follow_refused (hcursor.trans (if_pos hslash))]
          exact ⟨fun hres => absurd hres hnot, fun _ => rfl⟩
        · have hnext := filter_inOrder hids hrest hsize hd
          obtain ⟨hok, hbad⟩ := ih (hcursor.trans (if_neg hslash)) hnext
            (by rw [List.length_drop]; omega)
          have hiff : Resumable (pageSize limit) rest ↔
              Resumable (pageSize limit) (rest.drop (pageSize limit)) := by
            refine resumable_iff.trans ⟨And.right, fun hres => ⟨fun _ d' hd' => ?_, hres⟩⟩
            cases hd.symm.trans hd'
            exact hslash
          rw [hiff]
          refine ⟨fun hres => ?_, fun hres => ?_⟩
          · rw [hok hres, Option.map_some]
            exact congrArg (fun l => some (Except.ok l)) (List.take_append_drop ..)
          · rw [hbad hres]
            rfl
      · simp only [hmore, if_false, if_true]
        exact ⟨fun _ => trivial, fun hnot => absurd (resumable_of_length_le (by omega)) hnot⟩

/-- **When listing page by page is complete**: exactly if every document stands behind the empty
cursor, and every page but the last ends at a document whose name has no slash in it. -/
theorem listing_complete_iff (collate : Bytes → N) (sha1 : Sha1)
    (hids : (rows.map Listing.id).Nodup) (owner : Option Bytes) (hlimit : 0 < limit) :
    follow collate sha1 rows owner limit (rows.length + 1) [] =
        some (.ok (inOrder collate sha1 rows owner)) ↔
      (∀ d ∈ matching sha1 rows owner,
        Cursor.position collate {} < d.cursor.position collate) ∧
      Resumable (pageSize limit) (inOrder collate sha1 rows owner) := by
  have hmem : ∀ d, d ∈ inOrder collate sha1 rows owner ↔ d ∈ matching sha1 rows owner :=
    fun d => (List.perm_insertionSort ..).mem_iff
  have hlen : ((inOrder collate sha1 rows owner).filter fun d =>
      Cursor.position collate {} < d.cursor.position collate).length < rows.length + 1 := by
    refine Nat.lt_succ_of_le ((List.length_filter_le ..).trans ?_)
    rw [inOrder, List.length_insertionSort]
    exact List.length_filter_le ..
  have hfirst : (Resumable (pageSize limit) _ →
      follow collate sha1 rows owner limit (rows.length + 1) [] = some (.ok _)) ∧
      (¬Resumable (pageSize limit) _ →
        follow collate sha1 rows owner limit (rows.length + 1) [] = some (.error .badCursor)) :=
    follow_eq hids hlimit rfl rfl hlen
  constructor
  · intro hfollow
    have hres := not_imp_comm.1 hfirst.2 (by rw [hfollow]; simp)
    have hall := Except.ok.inj (Option.some.inj ((hfirst.1 hres).symm.trans hfollow))
    refine ⟨fun d hd => ?_, hall ▸ hres⟩
    simpa using List.filter_eq_self.1 hall d ((hmem d).2 hd)
  · rintro ⟨hbehind, hres⟩
    have hall : ((inOrder collate sha1 rows owner).filter fun d =>
        Cursor.position collate {} < d.cursor.position collate) =
        inOrder collate sha1 rows owner :=
      List.filter_eq_self.2 fun d hd => by simpa using hbehind d ((hmem d).1 hd)
    rw [hall] at hfirst
    exact hfirst.1 hres

end

namespace Listing.Sample

/-- Names are compared byte by byte. -/
def bytewise (name : Bytes) : List ℕ := name.map UInt8.toNat

/-- A hash that tells no two texts apart. -/
def sha1 : Sha1 := ⟨fun _ => List.replicate 20 0, by simp⟩

/-- Two documents, one of them under this name. -/
def rows (name : Bytes) : List (Listing Unit) :=
  [⟨documentNamespace, name, nilUUID, ()⟩, ⟨ownerNamespace, [0x63], nilUUID, ()⟩]

end Listing.Sample

open Listing.Sample in
/-- Documents `a` and `c` come on two pages. -/
theorem listing_complete_iff_witness :
    follow bytewise sha1 (rows [0x61]) none 1 3 [] = some (.ok (rows [0x61])) := by
  have hids : ((rows [0x61]).map Listing.id).Nodup := by decide
  refine (listing_complete_iff bytewise sha1 hids none (show (0 : ℤ) < 1 by decide)).2
    ⟨by decide, fun k d hk hd => ?_⟩
  -- the only page with another one behind it ends at `a`
  have hk : (k + 1) * 1 < 2 := hk
  obtain rfl : k = 0 := by omega
  obtain rfl : d = ⟨documentNamespace, [0x61], nilUUID, ()⟩ := (Option.some.inj hd).symm
  decide

open Listing.Sample in
/-- A document with the name `a/b` was created through the administrative routes. The first page ends
at it, and the second cannot be asked for. -/
theorem slash_ends_listing :
    adminName [0x61, 0x2f, 0x62] = some [0x61, 0x2f, 0x62] ∧
    gatewayName [0x61, 0x2f, 0x62] = none ∧
    follow bytewise sha1 (rows [0x61, 0x2f, 0x62]) none 1 3 [] = some (.error .badCursor) :=
  ⟨rfl, rfl, rfl⟩

end YCollab.Store
