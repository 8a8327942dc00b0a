import KvRaft.Web.Commit
import Mathlib.Data.Finset.Max

/-! # The learner's votes

A vote that was granted is backed by the learner's term and by `voted_for`, and no request takes the
backing away within the term. A request that names no candidate leaves no backing: its vote is
granted and recorded as no vote at all, so the next candidate of the term gets one, too.

A vote is granted to candidates that are as far as the learner. How far that is, is read off the log
table, whose indexes are signed words; from `2 ^ 63` on the last row is not the last entry. -/

namespace KvRaft.Web

open Bytes

/-! ## The backing of a vote -/

/-- The term does not go back, and within the term a vote stays. -/
def ballotFrame : Frame SqliteStore where
  rel s s' := s.currentTerm ≤ s'.currentTerm ∧
    (s'.currentTerm = s.currentTerm → ∀ id, s.votedFor = some id → s'.votedFor = some id)
  refl s := ⟨le_rfl, fun _ _ h => h⟩
  trans := by
    rintro a b c ⟨hab, hvote⟩ ⟨hbc, hvote'⟩
    refine ⟨hab.trans hbc, fun hterm id hid => ?_⟩
    have hb : b.currentTerm = a.currentTerm := le_antisymm (hterm ▸ hbc) hab
    exact hvote' (hterm.trans hb.symm) id (hvote hb id hid)

theorem ballot_of_eq {s s' : SqliteStore} (hterm : s'.currentTerm = s.currentTerm)
    (hvote : s'.votedFor = s.votedFor) : ballotFrame.rel s s' :=
  ⟨hterm.ge, fun _ _ hid => hvote.trans hid⟩

theorem ballot_adoptTerm (s : SqliteStore) (term : UInt64) :
    ballotFrame.rel s (adoptTerm s term) := by
  unfold adoptTerm
  split_ifs with h
  · exact ⟨h.le, fun heq => absurd heq h.ne'⟩
  · exact ballotFrame.refl s

/-- The candidate that a request names: its header's, or the one in the body. -/
def RequestVoteRequest.candidateID (req : RequestVoteRequest) : Option Bytes :=
  req.header.id.or req.candidate

/-- Whether the vote of the term is free, or the candidate's already. -/
def canVote (s : SqliteStore) (candidateID : Option Bytes) : Bool :=
  match s.votedFor with
  | none => true
  | some v => some v = candidateID

def grants (s : SqliteStore) (req : RequestVoteRequest) : Bool :=
  canVote (adoptTerm s req.term) req.candidateID &&
    upToDate (adoptTerm s req.term) req.lastLogIndex req.lastLogTerm

theorem run_handleRequestVote (self : Learner) (req : RequestVoteRequest) (s : SqliteStore) :
    handleRequestVote self req s =
      if req.term < s.currentTerm then .ok ⟨myHeader self, s.currentTerm, none, false⟩ s
      else .ok ⟨myHeader self, req.term, none, grants s req⟩
        (if grants s req then (adoptTerm s req.term).setVotedFor req.candidateID else adoptTerm s
          req.term) := by
  have hget (g : SqliteStore → Db RequestVoteResponse) (s : SqliteStore) :
      (get >>= g) s = g s s := rfl
  have hmodify (f : SqliteStore → SqliteStore) (g : PUnit → Db RequestVoteResponse)
      (s : SqliteStore) :
    ((modify f : Db PUnit) >>= g) s = g ⟨⟩ (f s) := rfl
  unfold handleRequestVote
  rw [hget]
  by_cases hpast : req.term < s.currentTerm
  · rw [if_pos hpast, if_pos hpast]
    rfl
  rw [if_neg hpast, if_neg hpast, hmodify, hget]
  change (if grants s req = true then
      (modify fun s => s.setVotedFor req.candidateID) >>= fun _ =>
        pure ⟨myHeader self, req.term, none, grants s req⟩
    else pure ⟨myHeader self, req.term, none, grants s req⟩ : Db RequestVoteResponse)
      (adoptTerm s req.term) = _
  split_ifs <;> rfl

theorem canVote_iff {s : SqliteStore} {candidateID : Option Bytes} :
    canVote s candidateID = true ↔ ∀ id, s.votedFor = some id → candidateID = some id := by
  unfold canVote
  rcases s.votedFor with _ | v
  · simp
  · simp [eq_comm]

theorem ballot_handleRequestVote (self : Learner) (req : RequestVoteRequest) :
    ballotFrame.Keeps (handleRequestVote self req) := by
  intro s
  rw [EStateM.final, run_handleRequestVote]
  split_ifs with hpast hgrant
  · exact ballotFrame.refl s
  · have hvote := canVote_iff.mp (Bool.and_eq_true_iff.mp hgrant).1
    exact ballotFrame.trans (ballot_adoptTerm s req.term) ⟨le_rfl, fun _ id hid => hvote id hid⟩
  · exact ballot_adoptTerm s req.term

theorem ballot_handleAppendEntries (self : Learner) (req : AppendEntriesRequest) :
    ballotFrame.Keeps (handleAppendEntries self req) := by
  intro s
  rw [final_handleAppendEntries]
  split_ifs with hpast
  · exact ballotFrame.refl s
  refine ballotFrame.trans (ballot_adoptTerm s req.term) ?_
  cases checkPrev (adoptTerm s req.term) req.prevLogEntry req.prevLogTerm with
  | missing => exact ballotFrame.refl _
  | conflict => exact ballot_of_eq rfl rfl
  | consistent =>
    -- storing and applying entries has nothing to do with votes
    obtain ⟨⟨log, hlog⟩, -⟩ := storeEntries_effect (adoptTerm s req.term) req
    obtain ⟨⟨kv, applied, hfinal⟩, -⟩ := applyCommitted_effect (stored s req)
    have hcommit : (stored s req).currentTerm = (adoptTerm s req.term).currentTerm ∧
        (stored s req).votedFor = (adoptTerm s req.term).votedFor := by
      unfold stored advanceCommit
      rw [hlog]
      split_ifs <;> exact ⟨rfl, rfl⟩
    dsimp only
    rw [hfinal]
    exact ballot_of_eq hcommit.1 hcommit.2

theorem ballot_installMarker (s : SqliteStore) (req : InstallSnapshotRequest) :
    s.currentTerm ≤ (installMarker s req).currentTerm ∧
      (installMarker s req).votedFor = s.votedFor := by
  have hle : ∀ t : UInt64, s.currentTerm ≤ if s.currentTerm < t then t else s.currentTerm :=
    fun t => by
    split_ifs with h
    · exact h.le
    · exact le_rfl
  have hterm :
      (installMarker s req).currentTerm =
        if s.currentTerm < req.term then req.term else s.currentTerm := by
    unfold installMarker
    dsimp only [SqliteStore.logTruncateThrough, SqliteStore.setLastIncluded]
    split_ifs <;> rfl
  refine ⟨hterm ▸ hle req.term, ?_⟩
  unfold installMarker
  dsimp only [SqliteStore.logTruncateThrough, SqliteStore.setLastIncluded]
  split_ifs <;> rfl

theorem ballot_handleInstallSnapshot (self : Learner) (req : InstallSnapshotRequest)
    (body : Bytes) :
    ballotFrame.Keeps (handleInstallSnapshot self req body) := by
  intro s
  rw [final_handleInstallSnapshot]
  rcases decodeSnapshotEntries body with e | entries
  · exact ballotFrame.refl s
  dsimp only
  obtain ⟨kv, tx, hfinal⟩ := keeps_kvReplaceAll entries s
  rw [hfinal]
  cases (SqliteStore.kvReplaceAll entries).outcome s with
  | error e => exact ballot_of_eq rfl rfl
  | ok u =>
    obtain ⟨hterm, hvote⟩ := ballot_installMarker { s with kv := kv, inTransaction := tx } req
    exact ⟨hterm, fun _ id hid => hvote.trans hid⟩

theorem keeps_handle (self : Learner) (r : Request) : ballotFrame.Keeps (handle self r) := by
  unfold handle
  cases r with
  | appendEntries req =>
    exact (ballot_handleAppendEntries self req).bind fun _ => Frame.keeps_pure _
  | requestVote req => exact (ballot_handleRequestVote self req).bind fun _ => Frame.keeps_pure _
  | requestPreVote req =>
    refine Frame.Keeps.bind (Frame.keeps_get_bind fun _ => ?_) fun _ => Frame.keeps_pure _
    exact Frame.keeps_ite (fun _ => Frame.keeps_pure _) fun _ => Frame.keeps_pure _
  | installSnapshot req body =>
    exact (ballot_handleInstallSnapshot self req body).bind fun _ => Frame.keeps_pure _
  | timeoutNow req => exact fun s => ballotFrame.refl s

variable {i : Nat} {requests : List Request} {term : UInt64} {req : RequestVoteRequest}
  {self : Learner}

theorem ballot_served (self : Learner) {j : Nat} (hij : i ≤ j)
    (hj : j ≤ requests.length) :
    ballotFrame.rel (served self (requests.take i)) (served self (requests.take j)) := by
  induction j, hij using Nat.le_induction with
  | base => exact ballotFrame.refl _
  | succ j hij ih =>
    rw [served_take_succ self hj]
    exact ballotFrame.trans (ih (by omega)) (keeps_handle self requests[j] _)

/-! ## How far the learner is -/

/-- The indexes that the learner knows, with their terms: of its snapshot and of its log. -/
def knownEntries (s : SqliteStore) : List (UInt64 × UInt64) :=
  (s.lastIncludedIndex, s.lastIncludedTerm) ::
    s.raftLog.entries.map fun row => (UInt64.ofSigned row.1, row.2.1)

/-- The learner's last entry is that of `term` at `index`. -/
def IsLast (s : SqliteStore) (index term : UInt64) : Prop :=
  (index, term) ∈ knownEntries s ∧ ∀ e ∈ knownEntries s, e.1 ≤ index

instance (s : SqliteStore) (index term : UInt64) : Decidable (IsLast s index term) :=
  decidable_of_iff ((index, term) ∈ knownEntries s ∧
    (knownEntries s).all fun e => decide (e.1 ≤ index))
    (by simp only [IsLast, List.all_eq_true, decide_eq_true_eq])

/-- The rows lie behind the snapshot, below `2 ^ 63`. -/
structure IndexInv (s : SqliteStore) : Prop where
  included : s.lastIncludedIndex.toNat < 2 ^ 63
  rows : ∀ idx v, s.raftLog.get idx = some v → ∃ i : UInt64, idx = i.toNat ∧ i.toNat < 2 ^ 63 ∧
    s.lastIncludedIndex.toNat < i.toNat

def SmallIndexes : Request → Prop
  | .appendEntries req => ∀ e ∈ req.entries, e.index.toNat < 2 ^ 63
  | .installSnapshot req _ => req.lastLogIndex.toNat < 2 ^ 63
  | _ => True

theorem ofSigned_toNat {i : UInt64} (h : i.toNat < 2 ^ 63) : UInt64.ofSigned i.toNat = i := by
  rw [← UInt64.signed_of_lt h, UInt64.ofSigned_signed]

theorem IndexInv.lastLogIndexTerm {s : SqliteStore} (h : IndexInv s) {index : UInt64}
    (hlast : IsLast s index term) : lastLogIndexTerm s = (index, term) := by
  obtain ⟨hmem, hmax⟩ := hlast
  have hscan : s.raftLog.scan (fun _ => true) = s.raftLog.entries :=
    List.filter_eq_self.mpr fun _ _ => rfl
  rcases hrow : s.raftLog.entries.getLast? with _ | ⟨idx, t, data⟩
  · have hentries := List.getLast?_eq_none_iff.mp hrow
    rw [knownEntries, hentries] at hmem
    cases List.mem_singleton.mp hmem
    rw [Web.lastLogIndexTerm, SqliteStore.logLastIndex, hrow]
    rfl
  obtain ⟨-, hget, hgreatest⟩ := OrdMap.getLast?_scan.mp (hscan ▸ hrow)
  obtain ⟨i, rfl, hi, habove⟩ := h.rows idx _ hget
  have hindex : s.logLastIndex = i := by
    rw [SqliteStore.logLastIndex, hrow]
    exact ofSigned_toNat hi
  have hne : i ≠ 0 := by
    rintro rfl
    exact Nat.not_lt_zero _ habove
  have hterm : s.logGetTerm i = some t := by
    rw [SqliteStore.logGetTerm, SqliteStore.logGet, UInt64.signed_of_lt hi, hget]
    rfl
  have hle : i ≤ index := hmax (i, t) (List.mem_cons_of_mem _ (List.mem_map.mpr
    ⟨_, OrdMap.get_eq_some.mp hget, by rw [ofSigned_toNat hi]⟩))
  rw [Web.lastLogIndexTerm, hindex, if_neg hne, hterm, Option.getD_some]
  rcases List.mem_cons.mp hmem with hsnapshot | hmem
  · -- the snapshot lies before the row
    obtain ⟨rfl, -⟩ := Prod.mk.inj hsnapshot
    rw [UInt64.le_iff_toNat_le] at hle
    omega
  · obtain ⟨⟨idx', t', data'⟩, hentry, heq⟩ := List.mem_map.mp hmem
    have hget' := OrdMap.get_eq_some.mpr hentry
    obtain ⟨i', rfl, hi', -⟩ := h.rows idx' _ hget'
    obtain ⟨rfl, rfl⟩ := Prod.mk.inj heq
    rw [ofSigned_toNat hi'] at hle ⊢
    have hge := hgreatest i'.toNat _ rfl hget'
    have hsame : i' = i := le_antisymm (UInt64.le_iff_toNat_le.mpr (by omega)) hle
    subst hsame
    cases hget.symm.trans hget'
    rfl

section IndexInv

variable {s : SqliteStore} (h : IndexInv s)
include h

theorem IndexInv.of_eq {s' : SqliteStore} (hlog : s'.raftLog = s.raftLog)
    (hincluded : s'.lastIncludedIndex = s.lastIncludedIndex) : IndexInv s' := by
  refine ⟨hincluded ▸ h.included, fun idx v hv => ?_⟩
  rw [hlog] at hv
  rw [hincluded]
  exact h.rows idx v hv

theorem IndexInv.logTruncateFrom (start : UInt64) : IndexInv (s.logTruncateFrom start) := by
  refine ⟨h.included, fun idx v hv => ?_⟩
  rw [SqliteStore.logTruncateFrom, OrdMap.get_filter] at hv
  split_ifs at hv
  exact h.rows idx v hv

theorem IndexInv.logAppend {index : UInt64} (hlt : index.toNat < 2 ^ 63)
    (hbehind : ¬index ≤ s.lastIncludedIndex)
    (term : UInt64) (data : Bytes) : IndexInv (s.logAppend index term data) := by
  refine ⟨h.included, fun idx v hv => ?_⟩
  rw [SqliteStore.logAppend, OrdMap.get_insert] at hv
  split_ifs at hv with hidx
  · exact ⟨index, hidx.trans (UInt64.signed_of_lt hlt), hlt,
      UInt64.lt_iff_toNat_lt.mp (not_le.mp hbehind)⟩
  · exact h.rows idx v hv

theorem IndexInv.storeEntry {e : Log} (he : e.index.toNat < 2 ^ 63) (last : UInt64) :
    IndexInv (storeEntry s.lastIncludedIndex (s, last) e).1 := by
  unfold Web.storeEntry
  dsimp only
  split_ifs with hbehind
  · exact h
  · split
    · split_ifs
      · exact h
      · exact (h.logTruncateFrom _).logAppend he hbehind _ _
    · exact h.logAppend he hbehind _ _

end IndexInv

theorem IndexInv.foldl_storeEntry {included : UInt64} {entries : List Log}
    (hentries : ∀ e ∈ entries, e.index.toNat < 2 ^ 63) {s : SqliteStore} (h : IndexInv s)
    (hincluded : s.lastIncludedIndex = included) (last : UInt64) :
    IndexInv (entries.foldl (Web.storeEntry included) (s, last)).1 := by
  induction entries generalizing s last with
  | nil => exact h
  | cons e entries ih =>
    obtain ⟨he, hrest⟩ := List.forall_mem_cons.mp hentries
    subst hincluded
    obtain ⟨⟨log, hlog⟩, -⟩ := storeEntry_effect s.lastIncludedIndex s last e
    refine ih hrest (h.storeEntry he last) ?_ _
    rw [hlog]

theorem IndexInv.handleAppendEntries {s : SqliteStore} (h : IndexInv s) (self : Learner)
    {req : AppendEntriesRequest} (hreq : SmallIndexes (.appendEntries req)) :
    IndexInv ((Web.handleAppendEntries self req).final s) := by
  rw [final_handleAppendEntries]
  split_ifs
  · exact h
  obtain ⟨t, v, hadopt⟩ := adoptTerm_effect s req.term
  have h' : IndexInv (adoptTerm s req.term) := by
    rw [hadopt]
    exact h.of_eq rfl rfl
  cases checkPrev (adoptTerm s req.term) req.prevLogEntry req.prevLogTerm with
  | missing => exact h'
  | conflict => exact h'.logTruncateFrom _
  | consistent =>
    have hstored : IndexInv (storeEntries (adoptTerm s req.term) req).1 :=
      h'.foldl_storeEntry hreq rfl _
    obtain ⟨⟨kv, applied, hfinal⟩, -⟩ := applyCommitted_effect (stored s req)
    dsimp only
    rw [hfinal]
    unfold stored advanceCommit
    split_ifs <;> exact hstored.of_eq rfl rfl

theorem IndexInv.handleInstallSnapshot {s : SqliteStore} (h : IndexInv s) (self : Learner)
    {req : InstallSnapshotRequest} {body : Bytes}
    (hreq : SmallIndexes (.installSnapshot req body)) :
    IndexInv ((Web.handleInstallSnapshot self req body).final s) := by
  have hreq : req.lastLogIndex.toNat < 2 ^ 63 := hreq
  rw [final_handleInstallSnapshot]
  rcases decodeSnapshotEntries body with e | entries
  · exact h
  dsimp only
  obtain ⟨kv, tx, hfinal⟩ := keeps_kvReplaceAll entries s
  rw [hfinal]
  cases (SqliteStore.kvReplaceAll entries).outcome s with
  | error e => exact h.of_eq rfl rfl
  | ok u =>
    obtain ⟨term, hmarker⟩ := installMarker_effect { s with kv := kv, inTransaction := tx } req
    dsimp only
    rw [hmarker]
    refine ⟨hreq, fun idx v hv => ?_⟩
    rw [OrdMap.get_filter] at hv
    split_ifs at hv with hidx
    obtain ⟨i, rfl, hi, -⟩ := h.rows idx v hv
    rw [UInt64.signed_of_lt hreq] at hidx
    exact ⟨i, rfl, hi, by simpa using hidx⟩

theorem IndexInv.handle {s : SqliteStore} (h : IndexInv s) (self : Learner) {r : Request}
    (hr : SmallIndexes r) : IndexInv ((Web.handle self r).final s) := by
  unfold Web.handle
  cases r with
  | appendEntries req =>
    rw [EStateM.final_bind_of_pure fun _ _ => rfl]
    exact h.handleAppendEntries self hr
  | installSnapshot req body =>
    rw [EStateM.final_bind_of_pure fun _ _ => rfl]
    exact h.handleInstallSnapshot self hr
  | requestVote req =>
    rw [EStateM.final_bind_of_pure fun _ _ => rfl]
    obtain ⟨t, v, hfinal⟩ := keeps_handleRequestVote self req s
    rw [hfinal]
    exact h.of_eq rfl rfl
  | requestPreVote req =>
    rw [EStateM.final_bind_of_pure fun _ _ => rfl]
    obtain ⟨t, v, hfinal⟩ := keeps_handleRequestPreVote self req s
    rw [hfinal]
    exact h.of_eq rfl rfl
  | timeoutNow req => exact h

theorem indexInv_served (self : Learner) (h : ∀ r ∈ requests, SmallIndexes r) :
    IndexInv (served self requests) :=
  List.foldlRecOn requests _ ⟨by decide, nofun⟩ fun _ hs r hr => hs.handle self (h r hr)

theorem IndexInv.isLast {s : SqliteStore} (h : IndexInv s) :
    IsLast s (Web.lastLogIndexTerm s).1 (Web.lastLogIndexTerm s).2 := by
  obtain ⟨⟨index, term⟩, hmem, hmax⟩ := Finset.exists_max_image (knownEntries s).toFinset Prod.fst
    ⟨_, List.mem_toFinset.mpr List.mem_cons_self⟩
  have hlast : IsLast s index term :=
    ⟨List.mem_toFinset.mp hmem, fun e he => hmax e (List.mem_toFinset.mpr he)⟩
  rw [h.lastLogIndexTerm hlast]
  exact hlast

/-! ## Runs -/

def replyTo (self : Learner) (requests : List Request) (i : Nat) (hi : i < requests.length) :
    Except (Fault StoreError) Response :=
  (handle self requests[i]).outcome (served self (requests.take i))

/-- The `i`-th request is a vote that is granted, with this term in the reply. -/
def Granted (self : Learner) (requests : List Request) (i : Nat) (req : RequestVoteRequest)
    (term : UInt64) : Prop :=
  ∃ (hi : i < requests.length) (resp : RequestVoteResponse), requests[i] = .requestVote req ∧
    replyTo self requests i hi = .ok (.requestVote resp) ∧ resp.granted = true ∧ resp.term = term

def NamesCandidate : Request → Prop
  | .requestVote req => req.candidateID ≠ none
  | _ => True

/-- The last entry, term and index, of the candidate that a request is about. -/
def candidateLast : Request → Option (UInt64 × UInt64)
  | .requestVote req => some (req.lastLogTerm, req.lastLogIndex)
  | .requestPreVote req => some (req.lastLogTerm, req.lastLogIndex)
  | _ => none

def Response.isGranted : Response → Bool
  | .requestVote resp => resp.granted
  | .requestPreVote resp => resp.granted
  | _ => false

theorem currentTerm_adoptTerm {s : SqliteStore} (h : ¬term < s.currentTerm) :
    (adoptTerm s term).currentTerm = term := by
  unfold adoptTerm
  split_ifs with hlt
  · rfl
  · exact le_antisymm (not_lt.mp h) (not_lt.mp hlt)

theorem adoptTerm_self (s : SqliteStore) : adoptTerm s s.currentTerm = s := if_neg (lt_irrefl _)

theorem run_requestVote (self : Learner) (req : RequestVoteRequest) (s : SqliteStore) :
    handle self (.requestVote req) s =
      if req.term < s.currentTerm then
        .ok (.requestVote ⟨myHeader self, s.currentTerm, none, false⟩) s
      else .ok (.requestVote ⟨myHeader self, req.term, none, grants s req⟩)
        (if grants s req then (adoptTerm s req.term).setVotedFor req.candidateID else adoptTerm s
          req.term) := by
  rw [handle]
  have hrun := run_handleRequestVote self req s
  split_ifs at hrun ⊢ <;> exact EStateM.run_bind_of_ok hrun _

theorem granted_of_grants
    (hi : i < requests.length) (hreq : requests[i] = .requestVote req)
    (hpast : ¬req.term < (served self (requests.take i)).currentTerm)
    (hgrants : grants (served self (requests.take i)) req = true) :
    Granted self requests i req req.term := by
  refine ⟨hi, ⟨myHeader self, req.term, none, true⟩, hreq, ?_, rfl, rfl⟩
  rw [replyTo, hreq, EStateM.outcome, run_requestVote, if_neg hpast, hgrants]

/-- What a granted vote rests on, and what it leaves. -/
theorem Granted.spec (h : Granted self requests i req term) :
    ∃ _ : i < requests.length, (served self (requests.take i)).currentTerm ≤ term ∧
      (∀ id, (served self (requests.take i)).currentTerm = term →
        (served self (requests.take i)).votedFor = some id → req.candidateID = some id) ∧
      (served self (requests.take (i + 1))).currentTerm = term ∧
      (served self (requests.take (i + 1))).votedFor = req.candidateID := by
  obtain ⟨hi, resp, hreq, hreply, hgranted, rfl⟩ := h
  refine ⟨hi, ?_⟩
  rw [served_take_succ self hi, hreq]
  rw [replyTo, hreq] at hreply
  generalize served self (requests.take i) = s at hreply
  rw [EStateM.outcome, run_requestVote] at hreply
  rw [EStateM.final, run_requestVote]
  by_cases hpast : req.term < s.currentTerm
  · rw [if_pos hpast] at hreply
    cases hreply
    cases hgranted
  rw [if_neg hpast] at hreply ⊢
  cases hreply
  have hgrants : grants s req = true := hgranted
  rw [if_pos hgrants]
  refine ⟨not_lt.mp hpast, fun id hterm hid => ?_, currentTerm_adoptTerm hpast, rfl⟩
  refine canVote_iff.mp (Bool.and_eq_true_iff.mp hgrants).1 id ?_
  rw [← show s.currentTerm = req.term from hterm, adoptTerm_self]
  exact hid

theorem Granted.eq_of_lt {j : Nat} {req' : RequestVoteRequest}
    (h : Granted self requests i req term) (h' : Granted self requests j req' term)
    (hij : i < j) (hnamed : req.candidateID ≠ none) : req.candidateID = req'.candidateID := by
  obtain ⟨hi, -, -, hterm, hvote⟩ := h.spec
  obtain ⟨hj, hle, hcan, -, -⟩ := h'.spec
  obtain ⟨id, hid⟩ := Option.ne_none_iff_exists'.mp hnamed
  obtain ⟨hmono, hkeep⟩ := ballot_served self (show i + 1 ≤ j from hij) hj.le
  rw [hterm] at hmono hkeep
  have hsame := le_antisymm hle hmono
  rw [hid, hcan id hsame (hkeep hsame id (hvote.trans hid))]

theorem upToDate_iff {s : SqliteStore} {index : UInt64} : upToDate s index term = true ↔
    (lastLogIndexTerm s).2 < term ∨ term = (lastLogIndexTerm s).2 ∧
      (lastLogIndexTerm s).1 ≤ index := by
  simp [upToDate]

/-- A granted reply, to a vote or to a pre-vote, is to a candidate that is as far as the learner. -/
theorem upToDate_of_granted {s : SqliteStore} {r : Request} {resp : Response}
    (hreply : (handle self r).outcome s = .ok resp) (hgranted : resp.isGranted = true)
    {last : UInt64 × UInt64} (hlast : candidateLast r = some last) :
    upToDate s last.2 last.1 = true := by
  cases r with
  | requestVote req =>
    cases hlast
    rw [EStateM.outcome, run_requestVote] at hreply
    obtain ⟨t, v, hadopt⟩ := adoptTerm_effect s req.term
    split_ifs at hreply with hpast <;> cases hreply
    · cases hgranted
    all_goals
      have hup := (Bool.and_eq_true_iff.mp hgranted).2
      rw [hadopt] at hup
      exact hup
  | requestPreVote req =>
    cases hlast
    rw [handle, handleRequestPreVote, EStateM.outcome_bind, EStateM.outcome_get_bind] at hreply
    split_ifs at hreply with hpast <;> cases hreply
    · cases hgranted
    · exact hgranted
  | appendEntries req => cases hlast
  | installSnapshot req body => cases hlast
  | timeoutNow req => cases hlast

/-- **The learner's votes**, along every sequence of requests from the empty database on. If every
request for a vote names a candidate, the votes that are granted with one term go to one candidate.
If the indexes of all entries and snapshots are below `2 ^ 63`, a vote or a pre-vote is granted to
those candidates only whose last entry is at least the last one that the learner knows. -/
theorem one_vote_per_term (self : Learner) (requests : List Request) :
    ((∀ r ∈ requests, NamesCandidate r) → ∀ i j req req' term, Granted self requests i req term →
      Granted self requests j req' term → req.candidateID = req'.candidateID) ∧
    ((∀ r ∈ requests, SmallIndexes r) → ∀ i (hi : i < requests.length) resp last,
      replyTo self requests i hi = .ok resp → resp.isGranted = true →
      candidateLast requests[i] = some last →
      ∃ index term, IsLast (served self (requests.take i)) index term ∧
        (term < last.1 ∨ last.1 = term ∧ index ≤ last.2)) := by
  constructor
  · intro hnames i j req req' term h h'
    have hnamed {k : Nat} {r : RequestVoteRequest} (hr : Granted self requests k r term) :
        r.candidateID ≠ none := by
      obtain ⟨hk, -, hreq, -⟩ := hr
      have hname := hnames requests[k] (List.getElem_mem hk)
      rw [hreq] at hname
      exact hname
    rcases Nat.lt_trichotomy i j with hij | rfl | hij
    · exact h.eq_of_lt h' hij (hnamed h)
    · obtain ⟨_, -, hreq, -⟩ := h
      obtain ⟨_, -, hreq', -⟩ := h'
      cases hreq.symm.trans hreq'
      rfl
    · exact (h'.eq_of_lt h hij (hnamed h')).symm
  · intro hsmall i hi resp last hreply hgranted hlast
    have hinv : IndexInv (served self (requests.take i)) :=
      indexInv_served self fun r hr => hsmall r (List.mem_of_mem_take hr)
    exact ⟨_, _, hinv.isLast, upToDate_iff.mp (upToDate_of_granted hreply hgranted hlast)⟩

/-- A request of the first term for a vote, from a candidate without entries. -/
def voteFor (id : Option Bytes) : RequestVoteRequest := { header := { id := id }, term := 1 }

/-- Of two named candidates, the second goes without. -/
theorem one_vote_per_term_named :
    ¬Granted browser [.requestVote (voteFor (ascii "a")), .requestVote (voteFor (ascii "b"))] 1
      (voteFor (ascii "b")) 1 := by
  intro h
  have hfirst :
      Granted browser [.requestVote (voteFor (ascii "a")), .requestVote (voteFor (ascii "b"))] 0
      (voteFor (ascii "a")) 1 := granted_of_grants (by decide) rfl (by decide) (by decide +kernel)
  exact absurd
    ((one_vote_per_term _ _).1 (by simp [NamesCandidate, voteFor, RequestVoteRequest.candidateID])
    0 1 _ _ 1 hfirst h) (by decide)

/-- Two entries, the first of which has an index that is negative as a signed word. -/
def farEntries : Request :=
  .appendEntries
    { term := 1,
      entries := [{ index := 0x8000000000000000, term := 1 }, { index := 1, term := 1 }] }

def candidateBehind : RequestVoteRequest :=
  { header := { id := ascii "b" }, term := 1, lastLogIndex := 1, lastLogTerm := 1 }

/-- A vote for nobody leaves the vote of the term to the next candidate. And after an entry at `2 ^
63` the learner votes for a candidate that does not have it. -/
theorem two_votes :
    (Granted browser [.requestVote (voteFor none),
      .requestVote (voteFor (ascii "b"))] 0 (voteFor none) 1 ∧
      Granted browser [.requestVote (voteFor none), .requestVote (voteFor (ascii "b"))] 1
        (voteFor (ascii "b")) 1 ∧
      (voteFor none).candidateID ≠ (voteFor (ascii "b")).candidateID) ∧
    Granted browser [farEntries, .requestVote candidateBehind] 1 candidateBehind 1 ∧
      IsLast (served browser [farEntries]) 0x8000000000000000 1 ∧
      candidateLast (.requestVote candidateBehind) = some (1, 1) := by
  refine ⟨⟨granted_of_grants (by decide) rfl (by decide) (by decide +kernel),
    granted_of_grants (by decide) rfl (by decide) (by decide +kernel), by decide⟩,
    granted_of_grants (by decide) rfl (by decide +kernel) (by decide +kernel),
      by decide +kernel, rfl⟩

end KvRaft.Web
