import Mathlib.Data.List.Basic
import Mathlib.Logic.Relation
import YCollab.Lib0.Encoder

/-!
# The address a request is counted under

`internal/gateway/clientip.go`. A request comes with the address of the socket's peer, and with
lines of the header `X-Forwarded-For`, each a list of hops that are separated by commas. The header
is read only if the peer is a trusted proxy, and then from the right: up to the first hop that is
not an address, or not that of a trusted proxy.

What a client writes into the header ends up on the left: every proxy adds the address it saw on
the right. So a client has no say in the address it is counted under, as soon as one hop to the
right of what it wrote is not trusted (`clientIP_of_leftOf`).

Addresses, prefixes and the functions on them are those of `net` and `net/netip`, and so is the
notion of white space: they are parameters here (`Netip`), of which nothing is assumed.
-/

namespace YCollab.Gateway

open Lib0

/-- The functions of the standard library that `ClientIP` uses. -/
structure Netip (Addr Prefix : Type) where
  /-- `netip.ParseAddr`. -/
  parseAddr : Bytes → Option Addr
  /-- The zero address, which is not valid. -/
  zero : Addr
  isValid : Addr → Bool
  /-- An IPv4 address in the place of an IPv6 address that stands for it. -/
  unmap : Addr → Addr
  string : Addr → Bytes
  contains : Prefix → Addr → Bool
  /-- The host of `net.SplitHostPort`. -/
  splitHostPort : Bytes → Option Bytes
  /-- `strings.TrimSpace`. -/
  trimSpace : Bytes → Bytes

variable {Addr Prefix : Type} (net : Netip Addr Prefix)

/-- `strings.Trim(s, "[]")`. -/
def trimBrackets (s : Bytes) : Bytes :=
  let bracket : UInt8 → Bool := fun c => c = 0x5B || c = 0x5D
  ((s.dropWhile bracket).reverse.dropWhile bracket).reverse

/-- `Proxies.trusts`. -/
def trusts (nets : List Prefix) (addr : Addr) : Bool :=
  nets.any fun n => net.contains n (net.unmap addr)

/-- `peerAddr`: the address of the peer, zero if it has none. -/
def peerAddr (remote : Bytes) : Addr :=
  match net.parseAddr (trimBrackets ((net.splitHostPort remote).getD remote)) with
  | none => net.zero
  | some addr => net.unmap addr

/-- The hops that the lines of the header name. -/
def hops (forwarded : List Bytes) : List Bytes :=
  forwarded.flatMap fun h => ((h.splitOn 0x2C).map net.trimSpace).filter fun v => v ≠ []

/-- The loop over the hops, the last one first. -/
def scanHops (nets : List Prefix) (peer : Addr) : List Bytes → Bytes
  | [] => net.string peer
  | hop :: rest =>
    match net.parseAddr (trimBrackets hop) with
    | none => net.string peer
    | some addr =>
      if trusts net nets addr then scanHops nets peer rest else net.string (net.unmap addr)

/-- `Proxies.ClientIP`, of a request from `remote` with these lines of the header. -/
def clientIP (nets : List Prefix) (remote : Bytes) (forwarded : List Bytes) : Bytes :=
  let peer := peerAddr net remote
  if nets.isEmpty then net.string peer
  else if !net.isValid peer || !trusts net nets peer then net.string peer
  else scanHops net nets peer (hops net forwarded).reverse

/-! ### What a client adds -/

/-- The second header is the first one with hops put to its left: as a line of their own, or in
front of a comma in the first line. -/
inductive PutLeft : List Bytes → List Bytes → Prop
  | line (h : Bytes) (forwarded : List Bytes) : PutLeft forwarded (h :: forwarded)
  | entry (p h : Bytes) (forwarded : List Bytes) :
    PutLeft (h :: forwarded) ((p ++ 0x2C :: h) :: forwarded)

/-- The second header is the first one with any hops to its left. -/
def LeftOf : List Bytes → List Bytes → Prop := Relation.ReflTransGen PutLeft

/-- The hop ends the scan: it is not an address, or not that of a trusted proxy. -/
def Stops (nets : List Prefix) (hop : Bytes) : Prop :=
  ∀ addr, net.parseAddr (trimBrackets hop) = some addr → trusts net nets addr = false

instance (nets : List Prefix) (hop : Bytes) : Decidable (Stops net nets hop) :=
  inferInstanceAs (Decidable (∀ addr ∈ net.parseAddr (trimBrackets hop),
    trusts net nets addr = false))

variable {nets : List Prefix} {H H' : List Bytes}

theorem hops_cons (h : Bytes) (H : List Bytes) : hops net (h :: H) = hops net [h] ++ hops net H := by
  simp [hops]

theorem PutLeft.hops (h : PutLeft H H') : ∃ P, hops net H' = P ++ hops net H := by
  cases h with
  | line h => exact ⟨_, hops_cons net h H⟩
  | entry p h H =>
    refine ⟨Gateway.hops net [p], ?_⟩
    rw [hops_cons, hops_cons net h, ← List.append_assoc]
    congr 1
    simp only [Gateway.hops, List.flatMap_cons, List.flatMap_nil, List.append_nil,
      List.splitOn_append_cons_self, List.map_append, List.filter_append]

theorem LeftOf.hops (h : LeftOf H H') : ∃ P, hops net H' = P ++ hops net H := by
  induction h with
  | refl => exact ⟨[], rfl⟩
  | tail _ hstep ih =>
    obtain ⟨P, hP⟩ := ih
    obtain ⟨Q, hQ⟩ := hstep.hops net
    exact ⟨Q ++ P, by rw [hQ, hP, List.append_assoc]⟩

/-- The scan does not go beyond a hop that ends it. -/
theorem scanHops_append (peer : Addr) {l : List Bytes} (h : ∃ hop ∈ l, Stops net nets hop)
    (r : List Bytes) : scanHops net nets peer (l ++ r) = scanHops net nets peer l := by
  induction l with
  | nil =>
    obtain ⟨hop, hmem, -⟩ := h
    cases hmem
  | cons hop l ih =>
    rw [List.cons_append, scanHops, scanHops]
    cases hparse : net.parseAddr (trimBrackets hop) with
    | none => rfl
    | some addr =>
      cases htrust : trusts net nets addr with
      | false => simp only [htrust, Bool.false_eq_true, if_false]
      | true =>
        simp only [htrust, if_true]
        refine ih ?_
        obtain ⟨hop', hmem, hstop⟩ := h
        rcases List.mem_cons.1 hmem with rfl | hmem
        · rw [hstop addr hparse] at htrust
          cases htrust
        · exact ⟨hop', hmem, hstop⟩

/-- **A client cannot choose the address it is counted under.**  If the peer is not trusted, the
header makes no difference. If one of its hops is not an address, or not that of a trusted proxy,
nothing that is put to its left does. -/
theorem clientIP_of_leftOf (net : Netip Addr Prefix) (nets : List Prefix) (remote : Bytes)
    (H H' : List Bytes) :
    (trusts net nets (peerAddr net remote) = false →
      clientIP net nets remote H' = clientIP net nets remote H) ∧
    (LeftOf H H' → (∃ hop ∈ hops net H, Stops net nets hop) →
      clientIP net nets remote H' = clientIP net nets remote H) := by
  refine ⟨fun hpeer => ?_, fun hleft hstop => ?_⟩
  · simp only [clientIP, hpeer, Bool.not_false, Bool.or_true, if_true]
  · obtain ⟨P, hP⟩ := hleft.hops net
    obtain ⟨hop, hmem, hstop⟩ := hstop
    have hscan := scanHops_append net (peerAddr net remote)
      ⟨hop, List.mem_reverse.2 hmem, hstop⟩ P.reverse
    rw [← List.reverse_append, ← hP] at hscan
    simp only [clientIP, hscan]

/-! ### IPv4 -/

namespace IPv4

/-- A field of an address: decimal digits up to 255, without a leading zero. -/
def octet (s : Bytes) : Option ℕ :=
  let n := s.foldl (fun n b => 10 * n + (b.toNat - 48)) 0
  if s = [] ∨ (∃ b ∈ s, b < 48 ∨ 57 < b) ∨ 1 < s.length ∧ s.head? = some 48 ∨ 255 < n then none
  else some n

/-- `netip.ParseAddr`, of a text without a colon. -/
def parseAddr (s : Bytes) : Option (List ℕ) :=
  let fields := s.splitOn 0x2E
  if fields.length = 4 then fields.mapM octet else none

/-- The address as a number. -/
def value (addr : List ℕ) : ℕ := addr.foldl (fun n b => 256 * n + b) 0

/-- The digits of a field. -/
def digits (n : ℕ) : Bytes :=
  let d := [n / 100, n / 10 % 10, n % 10].dropWhile (· = 0)
  (if d = [] then [0] else d).map fun k => UInt8.ofNat (48 + k)

/-- A space, tab or line break. -/
def isSpace (b : UInt8) : Bool := b = 32 || (9 ≤ b && b ≤ 13)

/-- The functions of the standard library, on IPv4 addresses. A prefix is an address and a number of
bits. -/
def netip : Netip (List ℕ) (List ℕ × ℕ) where
  parseAddr := parseAddr
  zero := []
  isValid addr := addr ≠ []
  unmap := id
  string addr := [0x2E].intercalate (addr.map digits)
  contains p addr := addr ≠ [] && value addr / 2 ^ (32 - p.2) = value p.1 / 2 ^ (32 - p.2)
  splitHostPort s :=
    match s.splitOn 0x3A with
    | [host, _] => some host
    | _ => none
  trimSpace s := ((s.dropWhile isSpace).reverse.dropWhile isSpace).reverse

/-- `10.0.0.1:4711`. -/
def peer : Bytes := [49, 48, 46, 48, 46, 48, 46, 49, 58, 52, 55, 49, 49]

/-- `203.0.113.7`. -/
def client : Bytes := [50, 48, 51, 46, 48, 46, 49, 49, 51, 46, 55]

/-- ` 203.0.113.7, 10.0.0.2`. -/
def seen : Bytes :=
  [32, 50, 48, 51, 46, 48, 46, 49, 49, 51, 46, 55, 44, 32, 49, 48, 46, 48, 46, 48, 46, 50]

/-- `1.2.3.4`. -/
def claim : Bytes := [49, 46, 50, 46, 51, 46, 52]

/-- `10.0.0.0/8`. -/
def proxies : List (List ℕ × ℕ) := [([10, 0, 0, 0], 8)]

end IPv4

open IPv4 in
/-- Two proxies of `10.0.0.0/8` forward a request of `203.0.113.7`, which claims to be `1.2.3.4`. -/
theorem clientIP_of_claim :
    trusts netip proxies (peerAddr netip peer) = true ∧
      hops netip [claim ++ 0x2C :: seen] = [claim, client, [49, 48, 46, 48, 46, 48, 46, 50]] ∧
      clientIP netip proxies peer [claim ++ 0x2C :: seen] = client := by
  have hleft : LeftOf [seen] [claim ++ 0x2C :: seen] := .single (.entry claim seen [])
  have hstop : ∃ hop ∈ hops netip [seen], Stops netip proxies hop :=
    ⟨client, by decide, by decide⟩
  have hsame := (clientIP_of_leftOf netip proxies peer _ _).2 hleft hstop
  exact ⟨by decide, by decide, hsame.trans (by decide)⟩

end YCollab.Gateway
