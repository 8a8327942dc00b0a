import Mathlib.Data.List.Sort
import KvRaft.Lib.OrdMap
import KvRaft.Raft.Configuration

/-! # The leader's commit index (`thirdparty/raft/commitment.go`)

A leader notes for every voter how much of its log the voter stores, and takes the middle of the
sorted notes for the index that a majority stores. -/

namespace KvRaft.Raft

structure Commitment where
  /-- The voters, and how much of the log each of them stores. -/
  matchIndexes : OrdMap ServerID Nat
  commitIndex : Nat
  /-- The first index of the leader's term. -/
  startIndex : Nat
  /-- The pending notification of `commitCh`, a channel with room for one. -/
  commitCh : Bool
deriving DecidableEq

def newCommitment (configuration : Configuration) (startIndex : Nat) : Commitment :=
  ⟨OrdMap.ofKeys configuration.voters fun _ => 0, 0, startIndex, false⟩

/-- `matched[(len(matched)-1)/2]` -/
def quorumMatchIndex (matchIndexes : OrdMap ServerID Nat) : Nat :=
  let matched := (matchIndexes.entries.map Prod.snd).insertionSort (· ≤ ·)
  matched.getD ((matched.length - 1) / 2) 0

def Commitment.recalculate (c : Commitment) : Commitment :=
  if c.matchIndexes.entries = [] then c
  else if c.commitIndex < quorumMatchIndex c.matchIndexes ∧
      c.startIndex ≤ quorumMatchIndex c.matchIndexes then
    { c with commitIndex := quorumMatchIndex c.matchIndexes, commitCh := true }
  else c

def Commitment.setConfiguration (c : Commitment) (configuration : Configuration) : Commitment :=
  { c with
    matchIndexes :=
      OrdMap.ofKeys configuration.voters fun v => (c.matchIndexes.get v).getD 0 }.recalculate

/-- `match` -/
def Commitment.matched (c : Commitment) (server : ServerID) (matchIndex : Nat) : Commitment :=
  match c.matchIndexes.get server with
  | some prev =>
    if prev < matchIndex then
      { c with matchIndexes := c.matchIndexes.insert server matchIndex }.recalculate
    else c
  | none => c

/-! ## What a majority stores -/

def storedBy (matchIndexes : OrdMap ServerID Nat) (k : Nat) : Set ServerID :=
  {v | ∃ i, matchIndexes.get v = some i ∧ k ≤ i}

/-- The notes are about these voters. -/
def Concerns (matchIndexes : OrdMap ServerID Nat) (voters : Finset ServerID) : Prop :=
  ∀ v, v ∈ voters ↔ (matchIndexes.get v).isSome

theorem concerns_ofKeys (c : Configuration) (f : ServerID → Nat) :
    Concerns (OrdMap.ofKeys c.voters f) c.voters.toFinset := by
  intro v
  rw [OrdMap.get_ofKeys, List.mem_toFinset]
  split <;> simp [*]

section
variable {m : OrdMap ServerID Nat} {voters : Finset ServerID}

theorem Concerns.insert (h : Concerns m voters) {v : ServerID} (hv : (m.get v).isSome) (i : Nat) :
    Concerns (m.insert v i) voters := by
  intro v'
  rw [h v', OrdMap.get_insert]
  split
  · subst v'
    simp [hv]
  · rfl

theorem Concerns.entries_ne_nil (h : Concerns m voters) (hne : voters.Nonempty) :
    m.entries ≠ [] := by
  obtain ⟨v, hv⟩ := hne
  have hmem := OrdMap.mem_keys.mpr ((h v).mp hv)
  intro hnil
  rw [hnil] at hmem
  cases hmem

theorem Concerns.le_quorumMatchIndex_iff (h : Concerns m voters) (hne : voters.Nonempty) (k : Nat) :
    k ≤ quorumMatchIndex m ↔ Majority voters (storedBy m k) := by
  have hkeys : (m.entries.map Prod.fst).toFinset = voters := by
    ext v
    rw [List.mem_toFinset, OrdMap.mem_keys, h v]
  have hcard : voters.card = (m.entries.map Prod.snd).length := by
    rw [← hkeys, List.toFinset_card_of_nodup m.nodup_keys, List.length_map, List.length_map]
  have hcount : ((m.entries.filter (k ≤ ·.2)).map Prod.fst).toFinset.card =
      (m.entries.map Prod.snd).countP (k ≤ ·) := by
    rw [List.toFinset_card_of_nodup (m.nodup_keys.sublist (List.filter_sublist.map _)),
      List.length_map, List.countP_map, List.countP_eq_length_filter]
    rfl
  rw [majority_iff_card (G := ((m.entries.filter (k ≤ ·.2)).map Prod.fst).toFinset), hcard, hcount]
  · exact le_lowerMiddle_iff (by simpa using h.entries_ne_nil hne) k
  · intro v
    rw [List.mem_toFinset, List.mem_map, h v]
    constructor
    · rintro ⟨⟨v, i⟩, hmem, rfl⟩
      obtain ⟨hmem, hk⟩ := List.mem_filter.mp hmem
      have hget := OrdMap.get_eq_some.mpr hmem
      exact ⟨by simp [hget], i, hget, by simpa using hk⟩
    · rintro ⟨-, i, hget, hk⟩
      exact ⟨(v, i), List.mem_filter.mpr ⟨OrdMap.get_eq_some.mp hget, by simpa using hk⟩, rfl⟩

end

/-! ## The commit index -/

@[simp] theorem recalculate_matchIndexes (c : Commitment) :
    c.recalculate.matchIndexes = c.matchIndexes := by
  unfold Commitment.recalculate
  split_ifs <;> rfl

@[simp] theorem recalculate_startIndex (c : Commitment) :
    c.recalculate.startIndex = c.startIndex := by
  unfold Commitment.recalculate
  split_ifs <;> rfl

theorem recalculate_cases (c : Commitment) {voters : Finset ServerID}
    (h : Concerns c.matchIndexes voters) (hne : voters.Nonempty) :
    c.recalculate.commitIndex = c.commitIndex ∧ c.recalculate.commitCh = c.commitCh ∨
      c.commitIndex < c.recalculate.commitIndex ∧ c.startIndex ≤ c.recalculate.commitIndex ∧
        c.recalculate.commitCh = true ∧
          Majority voters (storedBy c.matchIndexes c.recalculate.commitIndex) := by
  unfold Commitment.recalculate
  split_ifs with hnil hup
  · exact .inl ⟨rfl, rfl⟩
  · exact .inr ⟨hup.1, hup.2, rfl, (h.le_quorumMatchIndex_iff hne _).mp le_rfl⟩
  · exact .inl ⟨rfl, rfl⟩

end KvRaft.Raft
