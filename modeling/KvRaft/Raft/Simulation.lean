import KvRaft.Lib.LeaderLogCatchUp
import KvRaft.Raft.LogFacts

/-! # Servers and their history

How the state of a cluster goes together with a history of leaders, votes and commits
(`LeaderLog.History`): the disks and the network (`Core`), and the memory of a server (`VolOk`).
What holds of messages and of a server's memory is not disturbed by the steps of other servers
(`MsgOk.run`, `VolOk.run_other`). -/

namespace KvRaft.Raft

open LeaderLog

abbrev Hist := History ServerID Log

theorem Cluster.fits_genesis (cl : Cluster) :
    cl.genesis.index = 0 + 1 ∧ ∀ c, cl.genesis.config = some c → c.Valid := by
  refine ⟨rfl, fun c hc => ?_⟩
  cases hc
  exact checkConfiguration_ok cl.valid

/-- The cluster as an instance of logs under leaders. -/
def Cluster.scheme (cl : Cluster) : Scheme ServerID Log Configuration where
  term := Log.term
  Fits i x := x.index = i + 1 ∧ ∀ c, x.config = some c → c.Valid
  config := Log.config
  Quorum c Q := Majority c.voters.toFinset Q
  Next c c' := Adjacent c.voters.toFinset c'.voters.toFinset
  meet := Majority.meet
  meet_next := Majority.meet_adjacent
  genesis := cl.genesis
  term_genesis := rfl
  fits_genesis := cl.fits_genesis

abbrev Cluster.Steps (cl : Cluster) (n : ServerID) : Hist → Hist → Prop :=
  Relation.ReflTransGen (LeaderLog.Step cl.scheme n)

section
variable (cl : Cluster) (a : Hist)

/-! ## The disks and the network -/

/-- What is on the disk about votes: at least the last one. -/
structure Ballot (n : ServerID) (s : Stable) : Prop where
  past : ∀ t c, a.vote n t = some c → t < s.lastVoteTerm ∨ t = s.lastVoteTerm ∧
    s.lastVoteCand = some (cl.localAddr c)
  cast : ∀ addr, s.lastVoteCand = some addr →
    ∃ c, cl.localAddr c = addr ∧ a.vote n s.lastVoteTerm = some c
  le : s.lastVoteTerm ≤ s.currentTerm

/-- A request without entries, indices or a commit index. -/
def Empty (req : AppendEntriesRequest) : Prop :=
  req.prevLogEntry = 0 ∧ req.entries = [] ∧ req.leaderCommitIndex = 0

/-- A request carries a part of the leader's log that begins where the follower's log
may leave it. -/
structure SliceOk (dst : ServerID) (req : AppendEntriesRequest) : Prop where
  prev_le : req.prevLogEntry ≤ (a.lead req.term).length
  entries : a.upTo req.term req.prevLogEntry ++ req.entries <+: a.lead req.term
  prevTerm : ∀ p, req.prevLogEntry = p + 1 →
    ∃ x, (a.lead req.term)[p]? = some x ∧ x.term = req.prevLogTerm
  behind : Behind a dst req.term req.prevLogEntry
  -- a request without entries reaches to an entry of the leader's term
  nonempty : req.entries = [] → a.base req.term < req.prevLogEntry
  commit : Settled a (a.lead req.term) req.term req.leaderCommitIndex

/-- What a message says about the past. -/
def MsgOk : Msg → Prop
  | .requestVote _ req =>
    req.addr = cl.localAddr req.id ∧
      ∃ l, a.camp req.id req.term = some l ∧ req.lastLogTerm = cl.scheme.lastTerm l ∧
        req.lastLogIndex = l.length
  | .requestVoteReply src req resp => resp.granted = true → a.vote src req.term = some req.id
  | .appendEntries dst req => a.lead req.term ≠ [] ∧ (Empty req ∨ SliceOk a dst req)
  | .appendEntriesReply src req resp =>
    a.lead req.term ≠ [] ∧
      (resp.success = true → (Empty req ∨ Synced a src req.term) ∧
        ∀ last, req.entries.getLast? = some last → last.index ≤ a.ack src req.term) ∧
      (resp.success = false → req.term < resp.term ∨
        Rejected a src req.term req.prevLogEntry resp.lastLog)
  | _ => True

/-- The disks and the network go together with the history. -/
structure Core (disk : ServerID → Stable) (sent : List Msg) : Prop where
  inv : Inv cl.scheme a
  first : a.lead 1 ≠ []
  cur : ∀ n, a.cur n = (disk n).currentTerm
  log : ∀ n, a.log n = (disk n).logs
  ballot : ∀ n, Ballot cl a n (disk n)
  msgs : ∀ m ∈ sent, MsgOk cl a m

/-! ## The memory of a server -/

/-- A candidate that collects votes: those it has are from voters of the configuration
it stands with. -/
structure CampaignOk (n : ServerID) (s : Stable) (c : Campaign) : Prop where
  term : c.term = s.currentTerm
  boss : a.boss c.term ≠ some n
  counted : ∃ l G, a.camp n c.term = some l ∧ (a.lead c.term = [] → s.logs = l) ∧
    c.votesNeeded = quorumSize (confsOf l).latest ∧ c.waiting.Nodup ∧
    (∀ v ∈ c.waiting, v ∈ (confsOf l).latest.voters) ∧
    Finset.card G = c.granted ∧
      ∀ v ∈ G, v ∉ c.waiting ∧ v ∈ (confsOf l).latest.voters ∧ a.vote v c.term = some n
  own : n ∈ c.waiting → a.vote n c.term = some n

/-- What a replication routine has in its local variables. -/
def ModeOk (t : Nat) (peer : ServerID) (nextIndex : Nat) : Mode → Prop
  | .start last _ => a.base t < last
  | .waiting last _ req =>
    a.base t < last ∧ req.term = t ∧ req.prevLogEntry + 1 = nextIndex ∧ ¬Empty req
  | .pipeline next => 0 < next ∧ Synced a peer t
  | _ => True

/-- A replication routine never sends from behind the place where the follower's log
leaves the leader's. -/
structure RoutineOk (t : Nat) (r : Replication) : Prop where
  next_pos : 0 < r.nextIndex
  behind : Behind a r.peer t (r.nextIndex - 1)
  synced : r.allowPipeline = true → Synced a r.peer t
  mode : ModeOk a t r.peer r.nextIndex r.mode
  stop : ∀ last, r.stop = some last → last = 0 ∨ a.base t < last

/-- What the leader of `t` notes about its voters is what they acknowledged, and what it takes for
committed is. -/
structure CommitmentOk (t : Nat) (voters : Finset ServerID) (c : Commitment) : Prop where
  start : c.startIndex = a.base t + 1
  concerns : Concerns c.matchIndexes voters
  acks : ∀ p i, c.matchIndexes.get p = some i → i ≤ a.ack p t
  committed : c.commitIndex = 0 ∨ ∃ m, a.commits t c.commitIndex m
  notified : c.commitCh = true → 0 < c.commitIndex

/-- A leader, maybe before its first entry. -/
structure Leads (n : ServerID) (s : Stable) (v : Volatile) (ls : LeaderState) : Prop where
  boss : a.boss s.currentTerm = some n
  lead : a.lead s.currentTerm = s.logs
  commitment : CommitmentOk a s.currentTerm v.configurations.latest.voters.toFinset ls.commitment
  commit_le : v.commitIndex ≤ max (a.base s.currentTerm) ls.commitment.commitIndex
  own : a.base s.currentTerm < v.commitIndex → ∃ m, a.commits s.currentTerm v.commitIndex m
  conf_le : v.configurations.committedIndex ≤ max (a.base s.currentTerm) v.commitIndex
  inflight : ∀ x ∈ ls.inflight, x ∈ s.logs
  repl : ∀ r ∈ ls.repl, RoutineOk a s.currentTerm r

structure LeaderOk (n : ServerID) (s : Stable) (v : Volatile) (ls : LeaderState) :
    Prop extends Leads a n s v ls where
  base_lt : a.base s.currentTerm < s.logs.length

def RoleOk (n : ServerID) (s : Stable) (v : Volatile) : Prop :=
  match v.role with
  | .follower => True
  | .candidate none => True
  | .candidate (some c) =>
    match c.stage with
    | .preVote =>
      c.term = s.currentTerm + 1 ∧ c.votesNeeded = quorumSize v.configurations.latest ∧
        v.candidateFromLeadershipTransfer = false
    | .vote => CampaignOk a n s c
  | .leader ls => LeaderOk a n s v ls

/-- What a server knows about its log: the configurations, and how much of it is
settled and applied. -/
structure LogOk (s : Stable) (v : Volatile) : Prop where
  confs : ConfsOk s.logs v.configurations
  confs_settled : Settled a s.logs s.currentTerm v.configurations.committedIndex
  settled : Settled a s.logs s.currentTerm v.commitIndex
  applied_le : v.lastApplied ≤ v.commitIndex
  fsm : v.fsm = (s.logs.take v.lastApplied).filter prepareLog
  panicked : v.panicked = false

structure VolOk (n : ServerID) (s : Stable) (v : Volatile) : Prop where
  log : LogOk a s v
  role : RoleOk a n s v

end

/-! ## Steps of other servers -/

section
variable {cl : Cluster} {m n : ServerID} {a a' : Hist} (h : Inv cl.scheme a)
  (hrun : cl.Steps m a a')
include h hrun

variable {t : Nat} {s : Stable} {v : Volatile}

/-- The steps of other servers do not change the log of a leader. -/
theorem lead_eq_of_boss (hboss : a.boss t = some n) (hne : m ≠ n) : a'.lead t = a.lead t := by
  induction hrun with
  | refl => rfl
  | tail hrun hs ih =>
    rename_i b c
    have hinv := h.run hrun
    have hboss' := (Extends.run h hrun).boss t n hboss
    rcases hs.lead_cases t with ⟨heq, -⟩ | ⟨-, hnil, -⟩ | ⟨hb, -⟩
    · rw [heq, ih]
    · exact absurd hnil (hinv.boss t n hboss').1
    · rw [hboss'] at hb
      cases hb
      exact absurd rfl hne

omit h in
theorem boss_ne_of_other (hboss : a.boss t ≠ some n) (hne : m ≠ n) : a'.boss t ≠ some n := by
  induction hrun with
  | refl => exact hboss
  | tail hrun hs ih =>
    cases hs with
    | elect =>
      rename_i b _ _ _ _ _ _ _ _
      by_cases ht : t = b.cur m
      · subst ht
        simpa [History.elect] using hne
      · simpa [History.elect, ht] using ih
    | _ => exact ih

omit h in
theorem disk_eq_of_other (hne : m ≠ n) :
    a'.cur n = a.cur n ∧ a'.log n = a.log n ∧ a'.vote n = a.vote n := by
  induction hrun with
  | refl => exact ⟨rfl, rfl, rfl⟩
  | tail hrun hs ih =>
    cases hs with
    | tick => exact ⟨by simpa [History.tick, hne.symm] using ih.1, ih.2⟩
    | write => exact ⟨ih.1, by simpa [History.write, hne.symm] using ih.2.1, ih.2.2⟩
    | grant => exact ⟨ih.1, ih.2.1, by simpa [History.grant, hne.symm] using ih.2.2⟩
    | _ => exact ih

theorem settled_run {l : List Log} {τ i : Nat} (hs : Settled a l τ i) : Settled a' l τ i :=
  hs.extends h (Extends.run h hrun)

theorem SliceOk.run {dst : ServerID} {req : AppendEntriesRequest} (ht : a.lead req.term ≠ [])
    (hs : SliceOk a dst req) : SliceOk a' dst req := by
  have hext := Extends.run h hrun
  have hgrows := hext.grows req.term
  refine ⟨hs.prev_le.trans hgrows.length_le, ?_, fun p hp => ?_, hs.behind.run h hrun ht,
    fun hnil => ?_, ?_⟩
  · rw [hext.grows.upTo hs.prev_le]
    exact hs.entries.trans hgrows
  · obtain ⟨x, hx, hterm⟩ := hs.prevTerm p hp
    exact ⟨x, hgrows.getElem?_of_some hx, hterm⟩
  · rw [hext.base _ ht]
    exact hs.nonempty hnil
  · refine (settled_run h hrun hs.commit).of_take_eq ?_
    exact hext.grows.upTo (hs.commit.length_le h)

theorem MsgOk.run {msg : Msg} (hm : MsgOk cl a msg) : MsgOk cl a' msg := by
  have hext := Extends.run h hrun
  cases msg with
  | requestVote dst req =>
    obtain ⟨haddr, l, hcamp, hrest⟩ := hm
    exact ⟨haddr, l, hext.camp _ _ l hcamp, hrest⟩
  | requestVoteReply src req resp => exact fun hg => hext.vote _ _ _ (hm hg)
  | appendEntries dst req =>
    obtain ⟨hne, hreq⟩ := hm
    exact ⟨lead_ne_nil_run h hrun hne, hreq.imp_right (SliceOk.run h hrun hne)⟩
  | appendEntriesReply src req resp =>
    obtain ⟨hne, hok, hrefused⟩ := hm
    refine ⟨lead_ne_nil_run h hrun hne, fun hs => ?_, fun hs => ?_⟩
    · obtain ⟨hsync, hack⟩ := hok hs
      exact ⟨hsync.imp_right (Synced.run h hrun),
        fun last hl => (hack last hl).trans (hext.ack _ _)⟩
    · exact (hrefused hs).imp_right (Rejected.run h hrun hne)
  | _ => trivial

theorem ModeOk.run (ht : a.lead t ≠ []) {peer : ServerID} {nextIndex : Nat} {m : Mode}
    (hm : ModeOk a t peer nextIndex m) : ModeOk a' t peer nextIndex m := by
  have hbase := (Extends.run h hrun).base t ht
  cases m with
  | start last b =>
    rw [ModeOk, hbase]
    exact hm
  | waiting last b req =>
    rw [ModeOk, hbase]
    exact hm
  | pipeline next => exact ⟨hm.1, hm.2.run h hrun⟩
  | _ => trivial

theorem RoutineOk.run {r : Replication} (ht : a.lead t ≠ []) (hr : RoutineOk a t r) :
    RoutineOk a' t r := by
  refine ⟨hr.next_pos, hr.behind.run h hrun ht, fun hp => (hr.synced hp).run h hrun,
    hr.mode.run h hrun ht, fun last hs => ?_⟩
  rw [(Extends.run h hrun).base t ht]
  exact hr.stop last hs

theorem LogOk.run (hl : LogOk a s v) : LogOk a' s v :=
  ⟨hl.confs, settled_run h hrun hl.confs_settled, settled_run h hrun hl.settled, hl.applied_le,
    hl.fsm, hl.panicked⟩

theorem CampaignOk.run {c : Campaign} (hboss : a.boss c.term ≠ some n → a'.boss c.term ≠ some n)
    (hc : CampaignOk a n s c) : CampaignOk a' n s c := by
  have hext := Extends.run h hrun
  obtain ⟨l, G, hcamp, hlead, hneeded, hnodup, hwaiting, hcard, hvotes⟩ := hc.counted
  refine ⟨hc.term, hboss hc.boss, ⟨l, G, hext.camp _ _ l hcamp, fun hnil => hlead ?_, hneeded,
    hnodup, hwaiting, hcard, fun v hv => ?_⟩, fun hn => hext.vote _ _ _ (hc.own hn)⟩
  · exact List.prefix_nil.mp (hnil ▸ hext.grows c.term)
  · obtain ⟨hout, hvoter, hvote⟩ := hvotes v hv
    exact ⟨hout, hvoter, hext.vote _ _ _ hvote⟩

theorem CommitmentOk.run (ht : a.lead t ≠ []) {voters : Finset ServerID} {c : Commitment}
    (hc : CommitmentOk a t voters c) : CommitmentOk a' t voters c := by
  have hext := Extends.run h hrun
  refine ⟨by rw [hext.base t ht, hc.start], hc.concerns,
    fun p i hi => (hc.acks p i hi).trans (hext.ack _ _),
    hc.committed.imp_right ?_, hc.notified⟩
  rintro ⟨m, hm⟩
  exact ⟨m, hext.commits _ _ _ hm⟩

theorem Leads.run {ls : LeaderState} {logs : List Log}
    (hlead : a'.lead s.currentTerm = logs) (hsub : s.logs ⊆ logs) (hl : Leads a n s v ls) :
    Leads a' n { s with logs := logs } v ls := by
  have hext := Extends.run h hrun
  have hne := (h.boss _ _ hl.boss).1
  have hbase := hext.base _ hne
  refine
    { boss := hext.boss _ _ hl.boss
      lead := hlead
      commitment := hl.commitment.run h hrun hne
      commit_le := hbase.symm ▸ hl.commit_le
      own := fun hb => ?_
      conf_le := hbase.symm ▸ hl.conf_le
      inflight := fun x hx => hsub (hl.inflight x hx)
      repl := fun r hr => (hl.repl r hr).run h hrun hne }
  obtain ⟨k, hk⟩ := hl.own (hbase ▸ hb)
  exact ⟨k, hext.commits _ _ _ hk⟩

theorem LeaderOk.run {ls : LeaderState}
    (hsame : a.boss s.currentTerm = some n → a'.lead s.currentTerm = a.lead s.currentTerm)
    (hl : LeaderOk a n s v ls) : LeaderOk a' n s v ls := by
  refine ⟨hl.toLeads.run h hrun ((hsame hl.boss).trans hl.lead) (List.Subset.refl _), ?_⟩
  rw [(Extends.run h hrun).base _ (h.boss _ _ hl.boss).1]
  exact hl.base_lt

/-- The memory of a server goes together with what others do, and with what it does itself as long
as it is not elected and appends nothing. -/
theorem VolOk.run (hboss : ∀ t, a.boss t ≠ some n → a'.boss t ≠ some n)
    (hsame : ∀ t, a.boss t = some n → a'.lead t = a.lead t) (hv : VolOk a n s v) :
    VolOk a' n s v := by
  refine ⟨hv.log.run h hrun, ?_⟩
  have hrole := hv.role
  unfold RoleOk at hrole ⊢
  split
  · trivial
  · trivial
  · next c hc =>
    rw [hc] at hrole
    simp only at hrole
    split
    · next hstage =>
      rw [hstage] at hrole
      exact hrole
    · next hstage =>
      rw [hstage] at hrole
      exact hrole.run h hrun (hboss _)
  · next ls hls =>
    rw [hls] at hrole
    exact hrole.run h hrun (hsame _)

theorem VolOk.run_other (hne : m ≠ n) (hv : VolOk a n s v) : VolOk a' n s v :=
  hv.run h hrun (fun _ hb => boss_ne_of_other hrun hb hne) fun _ hb => lead_eq_of_boss h hrun hb hne

end

end KvRaft.Raft
