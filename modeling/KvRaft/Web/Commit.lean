import KvRaft.Lib.Reach
import KvRaft.Web.Learner

/-! # The learner's commit index

`handle_append_entries` sets the commit index to the smaller of the leader's and the last index of
the request, also where that lies below the index it had. A request that resends an older part of
the log together with a newer commit index thus takes the commit index back, and below what was
already applied. -/

namespace KvRaft.Web

open Bytes

/-! ## Applying -/

/-- Only the `kv` table and the applied index change, and the applied index stays within `bound`. -/
def applyFrame (bound : UInt64) : Frame SqliteStore where
  rel s s' := (∃ kv lastApplied, s' = { s with kv := kv, lastApplied := lastApplied }) ∧
    (s.lastApplied ≤ bound → s'.lastApplied ≤ bound)
  refl s := ⟨⟨s.kv, s.lastApplied, rfl⟩, id⟩
  trans := by
    rintro a b c ⟨⟨kv, i, rfl⟩, hab⟩ ⟨⟨kv', i', rfl⟩, hbc⟩
    exact ⟨⟨kv', i', rfl⟩, fun ha => hbc (hab ha)⟩

theorem keeps_applyLogged (bound : UInt64) (entry : Option (UInt64 × Bytes)) :
    (applyFrame bound).Keeps (applyLogged entry) := by
  unfold applyLogged
  split
  · exact Frame.keeps_pure _
  · split
    · exact Frame.keeps_modify fun s => ⟨⟨_, s.lastApplied, rfl⟩, id⟩
    · exact Frame.keeps_modify fun s => ⟨⟨_, s.lastApplied, rfl⟩, id⟩
    · exact Frame.keeps_pure _
    · exact Frame.keeps_throw _

theorem keeps_applyEntry {bound next : UInt64} (h : next ≤ bound) :
    (applyFrame bound).Keeps (applyEntry next) :=
  Frame.keeps_get_bind fun _ => (keeps_applyLogged bound _).bind fun _ =>
    Frame.keeps_modify fun s => ⟨⟨s.kv, next, rfl⟩, fun _ => h⟩

theorem keeps_applyEntries {bound : UInt64} : ∀ {rounds : Nat} {lastApplied : UInt64},
    lastApplied.toNat + rounds ≤ bound.toNat →
      (applyFrame bound).Keeps (applyEntries rounds lastApplied)
  | 0, _, _ => Frame.keeps_pure _
  | rounds + 1, lastApplied, h => by
    have hbound := bound.toNat_lt
    have hnext : (lastApplied + 1).toNat = lastApplied.toNat + 1 := UInt64.toNat_add_one (by omega)
    refine (keeps_applyEntry ?_).bind fun _ => keeps_applyEntries ?_
    · rw [UInt64.le_iff_toNat_le]
      omega
    · omega

theorem applyCommitted_effect (s : SqliteStore) :
    (applyFrame s.commitIndex).rel s (applyCommitted.final s) := by
  rw [applyCommitted, EStateM.final_get_bind]
  dsimp only
  by_cases h : max s.lastApplied s.lastIncludedIndex ≤ s.commitIndex
  · refine keeps_applyEntries ?_ s
    rw [UInt64.le_iff_toNat_le] at h
    omega
  · -- nothing left to apply
    have hzero : s.commitIndex.toNat - (max s.lastApplied s.lastIncludedIndex).toNat = 0 := by
      rw [UInt64.le_iff_toNat_le] at h
      omega
    rw [hzero]
    exact (applyFrame _).refl s

/-! ## Entries of a request -/

/-- The index that a request reaches, which does not depend on the log. -/
def lastNewIndex (lastIncludedIndex : UInt64) (req : AppendEntriesRequest) : UInt64 :=
  req.entries.foldl
    (fun last e => if e.index ≤ lastIncludedIndex then max last e.index else e.index)
    (max req.prevLogEntry lastIncludedIndex)

theorem storeEntry_effect (included : UInt64) (s : SqliteStore) (last : UInt64) (e : Log) :
    (∃ log, (storeEntry included (s, last) e).1 = { s with raftLog := log }) ∧
      (storeEntry included (s, last) e).2 =
        if e.index ≤ included then max last e.index else e.index := by
  unfold storeEntry
  dsimp only
  split_ifs
  · exact ⟨⟨s.raftLog, rfl⟩, rfl⟩
  · refine ⟨?_, rfl⟩
    split
    · split_ifs
      · exact ⟨s.raftLog, rfl⟩
      · exact ⟨_, rfl⟩
    · exact ⟨_, rfl⟩

theorem foldl_storeEntry_effect (included : UInt64) (entries : List Log) (s : SqliteStore)
    (last : UInt64) :
    (∃ log, (entries.foldl (storeEntry included) (s, last)).1 = { s with raftLog := log }) ∧
      (entries.foldl (storeEntry included) (s, last)).2 =
        entries.foldl (fun last e => if e.index ≤ included then max last e.index else e.index)
          last := by
  induction entries generalizing s last with
  | nil => exact ⟨⟨s.raftLog, rfl⟩, rfl⟩
  | cons e entries ih =>
    obtain ⟨⟨log, hlog⟩, hlast⟩ := storeEntry_effect included s last e
    obtain ⟨⟨log', hlog'⟩, hlast'⟩ := ih (storeEntry included (s, last) e).1
      (storeEntry included (s, last) e).2
    rw [List.foldl_cons, List.foldl_cons, ← hlast]
    refine ⟨⟨log', ?_⟩, hlast'⟩
    rw [hlog', hlog]

theorem storeEntries_effect (s : SqliteStore) (req : AppendEntriesRequest) :
    (∃ log, (storeEntries s req).1 = { s with raftLog := log }) ∧
      (storeEntries s req).2 = lastNewIndex s.lastIncludedIndex req :=
  foldl_storeEntry_effect _ _ _ _

/-! ## One request -/

/-- The request is of no past term and fits on to the log. -/
def Accepts (s : SqliteStore) (req : AppendEntriesRequest) : Prop :=
  ¬req.term < s.currentTerm ∧
    checkPrev (adoptTerm s req.term) req.prevLogEntry req.prevLogTerm = .consistent

instance (s : SqliteStore) (req : AppendEntriesRequest) : Decidable (Accepts s req) :=
  inferInstanceAs (Decidable (_ ∧ _))

theorem adoptTerm_effect (s : SqliteStore) (term : UInt64) :
    ∃ t v, adoptTerm s term = { s with currentTerm := t, votedFor := v } := by
  unfold adoptTerm
  split_ifs
  · exact ⟨term, none, rfl⟩
  · exact ⟨s.currentTerm, s.votedFor, rfl⟩

/-- The database after the entries of an accepted request, before anything is applied. -/
def stored (s : SqliteStore) (req : AppendEntriesRequest) : SqliteStore :=
  advanceCommit (storeEntries (adoptTerm s req.term) req).1 req.leaderCommitIndex
    (storeEntries (adoptTerm s req.term) req).2

theorem final_handleAppendEntries (self : Learner) (req : AppendEntriesRequest) (s : SqliteStore) :
    (handleAppendEntries self req).final s =
      if req.term < s.currentTerm then s
      else match checkPrev (adoptTerm s req.term) req.prevLogEntry req.prevLogTerm with
        | .missing => adoptTerm s req.term
        | .conflict => (adoptTerm s req.term).logTruncateFrom req.prevLogEntry
        | .consistent => applyCommitted.final (stored s req) := by
  unfold handleAppendEntries
  rw [EStateM.final_get_bind]
  dsimp only
  split_ifs
  · rfl
  · have hadopt :
        (modify fun s => adoptTerm s req.term : Db PUnit) s = .ok ⟨⟩ (adoptTerm s req.term) := rfl
    rw [EStateM.final, EStateM.run_bind_of_ok hadopt, ← EStateM.final, EStateM.final_get_bind]
    cases checkPrev (adoptTerm s req.term) req.prevLogEntry req.prevLogTerm with
    | missing => rfl
    | conflict => rfl
    | consistent =>
      dsimp only
      rw [EStateM.final_get_bind]
      exact EStateM.final_bind_of_pure (fun _ _ => rfl) (stored s req)

/-- Only the `kv` table and the transaction on it change. -/
def tableFrame : Frame SqliteStore where
  rel s s' := ∃ kv tx, s' = { s with kv := kv, inTransaction := tx }
  refl s := ⟨s.kv, s.inTransaction, rfl⟩
  trans := by
    rintro a b c ⟨kv, tx, rfl⟩ ⟨kv', tx', rfl⟩
    exact ⟨kv', tx', rfl⟩

theorem keeps_kvReplaceAll (entries : List (Bytes × Bytes)) :
    tableFrame.Keeps (SqliteStore.kvReplaceAll entries) := by
  have hbegin : tableFrame.Keeps SqliteStore.begin := Frame.keeps_get_bind fun _ =>
    Frame.keeps_ite (fun _ => Frame.keeps_throw _) fun _ => Frame.keeps_modify fun s =>
      ⟨s.kv, true, rfl⟩
  have hclear : tableFrame.Keeps (modify fun s => { s with kv := .empty } : Db PUnit) :=
    Frame.keeps_modify fun s => ⟨.empty, s.inTransaction, rfl⟩
  have hrow (row : Bytes × Bytes) : tableFrame.Keeps (SqliteStore.insertRow row) :=
    Frame.keeps_get_bind fun _ => Frame.keeps_ite (fun _ => Frame.keeps_throw _) fun _ =>
      Frame.keeps_modify fun s => ⟨_, s.inTransaction, rfl⟩
  exact hbegin.bind fun _ => hclear.bind fun _ => (Frame.keeps_forM hrow).bind fun _ =>
    Frame.keeps_modify fun s => ⟨s.kv, false, rfl⟩

theorem installMarker_effect (s : SqliteStore) (req : InstallSnapshotRequest) :
    ∃ term, installMarker s req = { s with
      raftLog := s.raftLog.filter fun idx => req.lastLogIndex.signed < idx
      currentTerm := term
      lastIncludedIndex := req.lastLogIndex
      lastIncludedTerm := req.lastLogTerm
      commitIndex := max s.commitIndex req.lastLogIndex
      lastApplied := req.lastLogIndex } := by
  have hcommit : max s.commitIndex req.lastLogIndex =
      if s.commitIndex < req.lastLogIndex then req.lastLogIndex else s.commitIndex := by
    split_ifs with h
    · exact max_eq_right h.le
    · exact max_eq_left (not_lt.mp h)
  refine ⟨if s.currentTerm < req.term then req.term else s.currentTerm, ?_⟩
  rw [hcommit]
  unfold installMarker
  by_cases hterm : s.currentTerm < req.term <;> by_cases hlt : s.commitIndex < req.lastLogIndex <;>
    simp [SqliteStore.logTruncateThrough, SqliteStore.setLastIncluded, SqliteStore.setCurrentTerm,
      SqliteStore.setCommitIndex, SqliteStore.setLastApplied, hterm, hlt]

theorem final_handleInstallSnapshot (self : Learner) (req : InstallSnapshotRequest) (body : Bytes)
    (s : SqliteStore) :
    (handleInstallSnapshot self req body).final s =
      match decodeSnapshotEntries body with
      | .error _ => s
      | .ok entries =>
        match (SqliteStore.kvReplaceAll entries).outcome s with
        | .error _ => (SqliteStore.kvReplaceAll entries).final s
        | .ok _ => installMarker ((SqliteStore.kvReplaceAll entries).final s) req := by
  unfold handleInstallSnapshot
  cases decodeSnapshotEntries body with
  | error e => rfl
  | ok entries =>
    dsimp only
    rw [EStateM.final_bind]
    cases (SqliteStore.kvReplaceAll entries).outcome s <;> rfl

/-- The request takes the commit index back: it is accepted, it carries a newer commit index, and it
ends below the learner's. -/
def Regresses (s : SqliteStore) : Request → Prop
  | .appendEntries req => Accepts s req ∧ s.commitIndex < req.leaderCommitIndex ∧
      lastNewIndex s.lastIncludedIndex req < s.commitIndex
  | _ => False

theorem stored_effect (s : SqliteStore) (req : AppendEntriesRequest) :
    (stored s req).lastApplied = s.lastApplied ∧
      (stored s req).commitIndex = if s.commitIndex < req.leaderCommitIndex then
        min req.leaderCommitIndex (lastNewIndex s.lastIncludedIndex req) else s.commitIndex := by
  obtain ⟨t, v, hadopt⟩ := adoptTerm_effect s req.term
  obtain ⟨⟨log, hlog⟩, hlast⟩ := storeEntries_effect (adoptTerm s req.term) req
  unfold stored advanceCommit
  rw [hlast, hlog, hadopt]
  dsimp only
  split_ifs <;> exact ⟨rfl, rfl⟩

theorem commit_appendEntries_iff (self : Learner) {s : SqliteStore}
    (hs : s.lastApplied ≤ s.commitIndex) (req : AppendEntriesRequest) :
    (s.commitIndex ≤ ((handleAppendEntries self req).final s).commitIndex ∧
      ((handleAppendEntries self req).final s).lastApplied ≤
        ((handleAppendEntries self req).final s).commitIndex) ↔
          ¬Regresses s (.appendEntries req) := by
  rw [final_handleAppendEntries]
  by_cases hterm : req.term < s.currentTerm
  · rw [if_pos hterm]
    exact iff_of_true ⟨le_rfl, hs⟩ fun h => h.1.1 hterm
  rw [if_neg hterm]
  obtain ⟨t, v, hadopt⟩ := adoptTerm_effect s req.term
  rcases hprev : checkPrev (adoptTerm s req.term) req.prevLogEntry req.prevLogTerm with _ | _ | _
  · -- the request is accepted
    obtain ⟨happlied, hcommit⟩ := stored_effect s req
    obtain ⟨⟨kv, applied, hfinal⟩, hbound⟩ := applyCommitted_effect (stored s req)
    have haccepts : Accepts s req := ⟨hterm, hprev⟩
    dsimp only
    have hsame :
        (applyCommitted.final (stored s req)).commitIndex = (stored s req).commitIndex := by
      rw [hfinal]
    rw [happlied] at hbound
    rw [hsame, Regresses]
    simp only [haccepts, true_and, not_and, not_lt]
    constructor
    · rintro ⟨hle, -⟩ hlt
      rw [hcommit, if_pos hlt] at hle
      exact hle.trans (min_le_right _ _)
    · intro hreach
      have hle : s.commitIndex ≤ (stored s req).commitIndex := by
        rw [hcommit]
        split_ifs with hlt
        · exact le_min hlt.le (hreach hlt)
        · exact le_rfl
      exact ⟨hle, hbound (hs.trans hle)⟩
  · refine iff_of_true ?_ fun h => ?_
    · dsimp only
      rw [hadopt]
      exact ⟨le_rfl, hs⟩
    · rw [h.1.2] at hprev
      cases hprev
  · refine iff_of_true ?_ fun h => ?_
    · dsimp only
      rw [hadopt]
      exact ⟨le_rfl, hs⟩
    · rw [h.1.2] at hprev
      cases hprev

theorem commit_installSnapshot (self : Learner) {s : SqliteStore}
    (hs : s.lastApplied ≤ s.commitIndex) (req : InstallSnapshotRequest) (body : Bytes) :
    s.commitIndex ≤ ((handleInstallSnapshot self req body).final s).commitIndex ∧
      ((handleInstallSnapshot self req body).final s).lastApplied ≤
        ((handleInstallSnapshot self req body).final s).commitIndex := by
  rw [final_handleInstallSnapshot]
  rcases decodeSnapshotEntries body with e | entries
  · exact ⟨le_rfl, hs⟩
  dsimp only
  obtain ⟨kv, tx, hfinal⟩ := keeps_kvReplaceAll entries s
  rw [hfinal]
  cases (SqliteStore.kvReplaceAll entries).outcome s with
  | error e => exact ⟨le_rfl, hs⟩
  | ok u =>
    obtain ⟨term, hmarker⟩ := installMarker_effect { s with kv := kv, inTransaction := tx } req
    dsimp only
    rw [hmarker]
    exact ⟨le_max_left _ _, le_max_right _ _⟩

/-- Votes change the term and the vote alone. -/
def voteFrame : Frame SqliteStore where
  rel s s' := ∃ t v, s' = { s with currentTerm := t, votedFor := v }
  refl s := ⟨s.currentTerm, s.votedFor, rfl⟩
  trans := by
    rintro a b c ⟨t, v, rfl⟩ ⟨t', v', rfl⟩
    exact ⟨t', v', rfl⟩

theorem keeps_handleRequestVote (self : Learner) (req : RequestVoteRequest) :
    voteFrame.Keeps (handleRequestVote self req) := by
  refine Frame.keeps_get_bind fun s => Frame.keeps_ite (fun _ => Frame.keeps_pure _) fun _ => ?_
  refine Frame.Keeps.bind (Frame.keeps_modify fun s => adoptTerm_effect s req.term) fun _ => ?_
  refine Frame.keeps_get_bind fun s => Frame.keeps_ite (fun _ => ?_) fun _ => Frame.keeps_pure _
  exact Frame.Keeps.bind (Frame.keeps_modify fun s => ⟨s.currentTerm, _, rfl⟩) fun _ =>
    Frame.keeps_pure _

theorem keeps_handleRequestPreVote (self : Learner) (req : RequestPreVoteRequest) :
    voteFrame.Keeps (handleRequestPreVote self req) :=
  Frame.keeps_get_bind fun _ => Frame.keeps_ite (fun _ => Frame.keeps_pure _) fun _ =>
    Frame.keeps_pure _

/-- One request moves the commit index forward, and keeps the applied index below it, exactly if it
does not regress. -/
theorem commit_handle_iff (self : Learner) {s : SqliteStore} (hs : s.lastApplied ≤ s.commitIndex)
    (r : Request) :
    (s.commitIndex ≤ ((handle self r).final s).commitIndex ∧
      ((handle self r).final s).lastApplied ≤ ((handle self r).final s).commitIndex) ↔
        ¬Regresses s r := by
  unfold handle
  cases r with
  | appendEntries req =>
    rw [EStateM.final_bind_of_pure fun _ _ => rfl]
    exact commit_appendEntries_iff self hs req
  | installSnapshot req body =>
    rw [EStateM.final_bind_of_pure fun _ _ => rfl]
    exact iff_of_true (commit_installSnapshot self hs req body) id
  | requestVote req =>
    rw [EStateM.final_bind_of_pure fun _ _ => rfl]
    obtain ⟨t, v, hfinal⟩ := keeps_handleRequestVote self req s
    rw [hfinal]
    exact iff_of_true ⟨le_rfl, hs⟩ id
  | requestPreVote req =>
    rw [EStateM.final_bind_of_pure fun _ _ => rfl]
    obtain ⟨t, v, hfinal⟩ := keeps_handleRequestPreVote self req s
    rw [hfinal]
    exact iff_of_true ⟨le_rfl, hs⟩ id
  | timeoutNow req => exact iff_of_true ⟨le_rfl, hs⟩ id

/-! ## Runs -/

def served (self : Learner) (requests : List Request) : SqliteStore :=
  requests.foldl (fun s r => (handle self r).final s) {}

theorem served_take_succ (self : Learner) {requests : List Request} {i : Nat}
    (hi : i < requests.length) :
    served self (requests.take (i + 1)) =
      (handle self requests[i]).final (served self (requests.take i)) :=
  List.foldl_take_succ _ _ hi

/-- From the empty database on, along every sequence of requests, the commit index never moves back
and the applied index never exceeds it, exactly if no request regresses. -/
theorem commit_monotone_iff (self : Learner) (requests : List Request) :
    (∀ i (_ : i < requests.length),
      (served self (requests.take i)).commitIndex ≤
        (served self (requests.take (i + 1))).commitIndex ∧
      (served self (requests.take (i + 1))).lastApplied ≤
        (served self (requests.take (i + 1))).commitIndex) ↔
    ∀ i (hi : i < requests.length), ¬Regresses (served self (requests.take i)) requests[i] := by
  refine Nat.forall_lt_iff (I := fun i => (served self (requests.take i)).lastApplied ≤
    (served self (requests.take i)).commitIndex) le_rfl (fun i hi hinv => ?_)
      fun i hi hinv hok => ?_
  · rw [served_take_succ self hi]
    exact commit_handle_iff self hinv requests[i]
  · rw [served_take_succ self hi]
    exact ((commit_handle_iff self hinv requests[i]).mpr hok).2

def browser : Learner := ⟨ascii "q", ascii "/ip4/1.2.3.4"⟩

def bothEntries : Request :=
  .appendEntries { term := 1, entries := [{ index := 1, term := 1 }, { index := 2, term := 1 }],
                   leaderCommitIndex := 2 }

/-- The first of them again, from a leader that has committed a third. -/
def firstEntryAgain : Request :=
  .appendEntries { term := 1, entries := [{ index := 1, term := 1 }], leaderCommitIndex := 3 }

theorem commit_moves_back :
    (served browser [bothEntries]).commitIndex = 2 ∧
      (served browser [bothEntries]).lastApplied = 2 ∧
      (served browser [bothEntries, firstEntryAgain]).commitIndex = 1 ∧
      (served browser [bothEntries, firstEntryAgain]).lastApplied = 2 := by
  decide +kernel

end KvRaft.Web
