import KvRaft.Daemon.Acl
import KvRaft.Lib.TokenBucket
import Mathlib.Data.Rat.Floor

/-! # Traffic quotas

A tracker keeps one token bucket for each peer and one for each address. A request asks the bucket
of its peer first and that of its address second, and has to be granted by both. What the peer's
bucket granted stays spent where the address refuses. -/

namespace KvRaft.Daemon

open Bytes Shmevent TokenBucket

/-! ## The tracker -/

/-- `quotaTracker`. A rate of zero stands for no limit. -/
structure QuotaTracker where
  peerLimit : Limit ℚ
  ipLimit : Limit ℚ
  peer : OrdMap Bytes (Bucket ℚ)
  ip : OrdMap Bytes (Bucket ℚ)

def newQuotaTracker (peerPerSec : ℚ) (peerBurst : Int) (ipPerSec : ℚ) (ipBurst : Int) :
    QuotaTracker where
  peerLimit := ⟨peerPerSec, peerBurst⟩
  ipLimit := ⟨ipPerSec, ipBurst⟩
  peer := OrdMap.empty
  ip := OrdMap.empty

structure Call where
  peerID : Bytes
  ip : Bytes
  cost : Int
  now : ℚ

/-- Half of `allow`: the bucket of one key, unless there is no limit or no key. -/
def consult (l : Limit ℚ) (m : OrdMap Bytes (Bucket ℚ)) (key : Bytes) (now : ℚ) (cost : Int) :
    Bool × OrdMap Bytes (Bucket ℚ) :=
  if 0 < l.rate ∧ key ≠ [] then charge l m key now cost else (true, m)

namespace QuotaTracker

def allow (q : QuotaTracker) (c : Call) : Bool × QuotaTracker :=
  let byPeer := consult q.peerLimit q.peer c.peerID c.now c.cost
  if byPeer.1 then
    let byIP := consult q.ipLimit q.ip c.ip c.now c.cost
    (byIP.1, { q with peer := byPeer.2, ip := byIP.2 })
  else (false, { q with peer := byPeer.2 })

def serve (q : QuotaTracker) (calls : List Call) : QuotaTracker :=
  calls.foldl (fun q c => (q.allow c).2) q

def answers (q : QuotaTracker) : List Call → List Bool
  | [] => []
  | c :: calls => (q.allow c).1 :: (q.allow c).2.answers calls

def PeerGrants (q : QuotaTracker) (c : Call) : Prop :=
  0 < q.peerLimit.rate ∧ c.peerID ≠ [] ∧ (charge q.peerLimit q.peer c.peerID c.now c.cost).1 = true

structure SameTokens (q q' : QuotaTracker) : Prop where
  peerLimit : q.peerLimit = q'.peerLimit
  ipLimit : q.ipLimit = q'.ipLimit
  peer : TokenBucket.SameTokens q.peerLimit q.peer q'.peer
  ip : TokenBucket.SameTokens q.ipLimit q.ip q'.ip

end QuotaTracker

/-! ## Half of a request -/

theorem consult_congr {l : Limit ℚ} {m m' : OrdMap Bytes (Bucket ℚ)} (h : SameTokens l m m')
    (key : Bytes) (now : ℚ) (cost : Int) :
    (consult l m key now cost).1 = (consult l m' key now cost).1 ∧
      SameTokens l (consult l m key now cost).2 (consult l m' key now cost).2 := by
  unfold consult
  split_ifs
  · exact charge_congr h key now cost
  · exact ⟨rfl, h⟩

theorem consult_refused {l : Limit ℚ} {m : OrdMap Bytes (Bucket ℚ)} {key : Bytes} {now : ℚ}
    {cost : Int}
    (h : (consult l m key now cost).1 = false) : SameTokens l (consult l m key now cost).2 m := by
  unfold consult at h ⊢
  split_ifs at h ⊢
  exact same_of_refused h

namespace QuotaTracker

variable {q q' : QuotaTracker} {c : Call}

/-! ## Requests -/

theorem allow_congr (h : q.SameTokens q') (c : Call) :
    (q.allow c).1 = (q'.allow c).1 ∧ (q.allow c).2.SameTokens (q'.allow c).2 := by
  obtain ⟨hpeerLimit, hipLimit, hpeer, hip⟩ := h
  obtain ⟨hanswer, hpeer'⟩ := consult_congr hpeer c.peerID c.now c.cost
  obtain ⟨hanswer', hip'⟩ := consult_congr hip c.ip c.now c.cost
  unfold allow
  dsimp only
  rw [← hpeerLimit, ← hipLimit, ← hanswer]
  split_ifs
  · exact ⟨hanswer', rfl, rfl, hpeer', hip'⟩
  · exact ⟨rfl, rfl, rfl, hpeer', hip⟩

theorem answers_congr (h : q.SameTokens q') (calls : List Call) :
    q.answers calls = q'.answers calls := by
  induction calls generalizing q q' with
  | nil => rfl
  | cons c calls ih =>
    obtain ⟨hanswer, hsame⟩ := allow_congr h c
    rw [answers, answers, hanswer, ih hsame]

/-- Where the peer's bucket grants nothing, a rejected request leaves all buckets with
what they hold. -/
theorem same_of_rejected (hrejected : (q.allow c).1 = false) (h : ¬q.PeerGrants c) :
    (q.allow c).2.SameTokens q := by
  unfold allow at hrejected ⊢
  dsimp only at hrejected ⊢
  split_ifs at hrejected ⊢ with hpeer
  · -- the peer's bucket was not asked
    have hskipped : consult q.peerLimit q.peer c.peerID c.now c.cost = (true, q.peer) := by
      unfold consult at hpeer ⊢
      split_ifs at hpeer ⊢ with hasked
      · exact absurd ⟨hasked.1, hasked.2, hpeer⟩ h
      · rfl
    rw [hskipped]
    exact ⟨rfl, rfl, .refl _ _, consult_refused hrejected⟩
  · rw [Bool.not_eq_true] at hpeer
    exact ⟨rfl, rfl, consult_refused hpeer, .refl _ _⟩

theorem tokens_lt_of_peerGrants (hcost : 0 < c.cost) (h : q.PeerGrants c) :
    tokens q.peerLimit (q.allow c).2.peer c.peerID c.now <
      tokens q.peerLimit q.peer c.peerID c.now := by
  obtain ⟨hrate, hkey, hgranted⟩ := h
  have hconsult : consult q.peerLimit q.peer c.peerID c.now c.cost =
      charge q.peerLimit q.peer c.peerID c.now c.cost := if_pos ⟨hrate, hkey⟩
  unfold allow
  dsimp only
  rw [hconsult, if_pos hgranted]
  exact tokens_lt_of_granted (Int.cast_pos.mpr hcost) hgranted

theorem not_same_of_peerGrants (hcost : 0 < c.cost) (h : q.PeerGrants c) :
    ¬(q.allow c).2.SameTokens q := by
  intro hsame
  have hlimit : (q.allow c).2.peerLimit = q.peerLimit := hsame.peerLimit
  have htokens := hsame.peer c.peerID c.now
  rw [hlimit] at htokens
  exact (tokens_lt_of_peerGrants hcost h).ne htokens

/-- **When a rejected request costs nothing.** After any requests, at any times and at any cost: one
that is rejected before a bucket granted it leaves every bucket with what it would hold without it,
and no later request is answered otherwise. One that the peer's bucket granted, and the address
refused, is paid for by the peer. -/
theorem rejected_free (peerPerSec ipPerSec : ℚ) (peerBurst ipBurst : Int)
    (calls : List Call) (c : Call)
    (hrejected : (((newQuotaTracker peerPerSec peerBurst ipPerSec ipBurst).serve calls).allow c).1 =
      false) :
    let q := (newQuotaTracker peerPerSec peerBurst ipPerSec ipBurst).serve calls
    (¬q.PeerGrants c → (q.allow c).2.SameTokens q ∧
      ∀ later, (q.allow c).2.answers later = q.answers later) ∧
    (0 < c.cost → q.PeerGrants c → ¬(q.allow c).2.SameTokens q ∧
      tokens q.peerLimit (q.allow c).2.peer c.peerID c.now <
        tokens q.peerLimit q.peer c.peerID c.now) := by
  intro q
  refine ⟨fun h => ?_, fun hcost h => ?_⟩
  · have hsame := same_of_rejected hrejected h
    exact ⟨hsame, answers_congr hsame⟩
  · exact ⟨not_same_of_peerGrants hcost h, tokens_lt_of_peerGrants hcost h⟩

/-- Of a peer that has just spent its only token. -/
theorem rejected_free_spent :
    let spent : Call := ⟨ascii "p", ascii "a", 1, 0⟩
    let q := (newQuotaTracker 1 1 1 1).serve [spent]
    (q.allow spent).1 = false ∧ ∀ later, (q.allow spent).2.answers later = q.answers later := by
  intro spent q
  have hrejected : (q.allow spent).1 = false := by decide +kernel
  have hrefused : ¬q.PeerGrants spent := fun h => absurd h.2.2 (by decide +kernel)
  exact ⟨hrejected, ((rejected_free 1 1 1 1 [spent] spent hrejected).1 hrefused).2⟩

end QuotaTracker

/-! ## The relay -/

def defaultQuotaRelayEventsPerPeerPerSec : ℚ := 1
def defaultQuotaRelayBurstPerPeer : Int := 5
def defaultQuotaRelayEventsPerIPPerSec : ℚ := 5
def defaultQuotaRelayBurstPerIP : Int := 10

def relayQuota : QuotaTracker :=
  newQuotaTracker defaultQuotaRelayEventsPerPeerPerSec defaultQuotaRelayBurstPerPeer
    defaultQuotaRelayEventsPerIPPerSec defaultQuotaRelayBurstPerIP

/-- Two peers that use up what the address may ask for. -/
def neighbours : List Call :=
  List.replicate 5 ⟨ascii "x", ascii "a", 1, 0⟩ ++ List.replicate 5 ⟨ascii "y", ascii "a", 1, 0⟩

def fromSaturated : List Call := List.replicate 5 ⟨ascii "p", ascii "a", 1, 0⟩

def fromElsewhere : Call := ⟨ascii "p", ascii "b", 1, 0⟩

/-- The address is saturated, so the peer's five requests from there are rejected. They use up its
own tokens, and its request from elsewhere is rejected too; without them it is granted. -/
theorem saturated_address_charges_peer :
    (relayQuota.serve neighbours).answers (fromSaturated ++ [fromElsewhere]) =
        List.replicate 5 false ++ [false] ∧
      (relayQuota.serve neighbours).answers [fromElsewhere] = [true] := by
  decide +kernel

end KvRaft.Daemon
