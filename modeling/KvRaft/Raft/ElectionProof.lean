import KvRaft.Raft.Tracking

/-! # Elections keep to the history

Every event of an election leaves a server that goes together with some history (`Good`): its answer
to a candidate (`requestVote_good`), and its own candidacy (`electSelf_good`). -/

namespace KvRaft.Raft

open LeaderLog

/-- The server, with its disk, its memory and its effects so far, goes together
with some history. -/
def Good (cl : Cluster) (σ : System) (n : ServerID) (a₀ : Hist) (r : Run) : Prop :=
  ∃ a, Tracks cl σ n a₀ a r ∧ VolOk a n r.stable r.vol

section
variable {cl : Cluster} {σ : System} {n : ServerID} {a₀ a : Hist} {r : Run}

theorem Good.send (h : Good cl σ n a₀ r) {m : Msg} (hm : ∀ a, MsgOk cl a m) :
    Good cl σ n a₀ (r.send m) := by
  obtain ⟨a, ht, hv⟩ := h
  exact ⟨a, ht.send (hm a), hv⟩

/-! ## What is known about the log does not depend on the role -/

variable {s : Stable} {v : Volatile} {req : RequestVoteRequest}

theorem LogOk.of_stable {s' : Stable} (h : LogOk a s v) (hlogs : s'.logs = s.logs)
    (hterm : s.currentTerm ≤ s'.currentTerm) : LogOk a s' v := by
  refine ⟨?_, ?_, ?_, h.applied_le, ?_, h.panicked⟩ <;> rw [hlogs]
  · exact h.confs
  · exact h.confs_settled.mono hterm
  · exact h.settled.mono hterm
  · exact h.fsm

theorem LogOk.of_lead_eq {a' : Hist} (h : LogOk a s v) (hlead : a'.lead = a.lead)
    (hcommits : a'.commits = a.commits) : LogOk a' s v := by
  have hsettled : ∀ {l τ i}, Settled a l τ i → Settled a' l τ i := by
    rintro l τ i (rfl | ⟨t, k, m, hc, ht, hi, heq⟩)
    · exact settled_zero a' l τ
    · exact .inr ⟨t, k, m, by rwa [hcommits], ht, hi, by rwa [History.upTo, hlead]⟩
  exact ⟨h.confs, hsettled h.confs_settled, hsettled h.settled, h.applied_le, h.fsm, h.panicked⟩

theorem Good.setVol (h : Good cl σ n a₀ r) {f : Volatile → Volatile}
    (hlog : ∀ a, LogOk a r.stable r.vol → LogOk a r.stable (f r.vol))
    (hrole : ∀ a, RoleOk a n r.stable r.vol → RoleOk a n r.stable (f r.vol)) :
    Good cl σ n a₀ (r.setVol f) := by
  obtain ⟨a, ht, hv⟩ := h
  exact ⟨a, ht.setVol f, hlog a hv.log, hrole a hv.role⟩

theorem Good.setFollower (h : Good cl σ n a₀ r) : Good cl σ n a₀ (r.setState .follower) :=
  h.setVol (fun _ hl => { hl with }) fun _ _ => trivial

theorem RoleOk.congr {s' : Stable} {v' : Volatile} (h : RoleOk a n s v)
    (hterm : s'.currentTerm = s.currentTerm) (hlogs : s'.logs = s.logs) (hrole : v'.role = v.role)
    (hconf : v'.configurations = v.configurations) (hcommit : v'.commitIndex = v.commitIndex)
    (hflag : v'.candidateFromLeadershipTransfer = v.candidateFromLeadershipTransfer) :
    RoleOk a n s' v' := by
  obtain ⟨_, _, _, _⟩ := s
  obtain ⟨_, _, _, _⟩ := s'
  obtain ⟨_, _, _, _, _, _, _, _⟩ := v
  obtain ⟨role, _, _, _, _, _, _, _⟩ := v'
  simp only at hterm hlogs hrole hconf hcommit hflag
  subst hterm hlogs hrole hconf hcommit hflag
  cases role with
  | follower => trivial
  | candidate c =>
    cases c with
    | none => trivial
    | some c =>
      obtain ⟨stage, _, _, _, _⟩ := c
      cases stage with
      | preVote => exact h
      | vote => exact { (h : CampaignOk _ _ _ _) with }
  | leader ls => exact { (h : LeaderOk _ _ _ _ _) with }

theorem Good.setLeader (h : Good cl σ n a₀ r) (addr : ServerAddress) :
    Good cl σ n a₀ (r.setLeader addr) :=
  h.setVol (fun _ hl => { hl with }) fun _ hrole => hrole.congr rfl rfl rfl rfl rfl rfl

theorem Good.follow (h : Good cl σ n a₀ r) {t : Nat} (ht : r.stable.currentTerm ≤ t) :
    Good cl σ n a₀ ((r.setState .follower).setCurrentTerm t) := by
  obtain ⟨a, htr, hv⟩ := h.setFollower
  rcases ht.eq_or_lt with rfl | hlt
  · exact ⟨a, htr.sameTerm, { hv.log with }, trivial⟩
  · refine ⟨a.tick n t, htr.tick hlt, ?_, trivial⟩
    have hlead : LogOk (a.tick n t) r.stable (r.setState .follower).vol := hv.log.of_lead_eq rfl rfl
    exact hlead.of_stable rfl hlt.le

/-! ## Answering candidates -/

theorem Tracks.vote_eq_none (ht : Tracks cl σ n a₀ a r)
    (hno : ¬(r.stable.lastVoteTerm = r.stable.currentTerm ∧ r.stable.lastVoteCand.isSome)) :
    a.vote n (a.cur n) = none := by
  cases hv : a.vote n (a.cur n) with
  | none => rfl
  | some c =>
    rw [ht.cur] at hv
    rcases ht.ballot.past _ c hv with hlt | ⟨heq, hcand⟩
    · exact absurd (hlt.trans_le ht.ballot.le) (lt_irrefl _)
    · exact absurd ⟨heq.symm, by rw [hcand]; rfl⟩ hno

theorem lastTerm_eq (cl : Cluster) (s : Stable) : s.lastTerm = cl.scheme.lastTerm s.logs := rfl

theorem upToDate_of_checks {l : List Log}
    (hterm : req.lastLogTerm = cl.scheme.lastTerm l) (hindex : req.lastLogIndex = l.length)
    (h₁ : ¬req.lastLogTerm < s.lastTerm)
    (h₂ : ¬(s.lastTerm = req.lastLogTerm ∧ req.lastLogIndex < s.lastIndex)) :
    cl.scheme.UpToDate l s.logs := by
  rw [lastTerm_eq cl, hterm] at h₁ h₂
  rw [hindex, Stable.lastIndex] at h₂
  rcases lt_or_eq_of_le (not_lt.mp h₁) with hlt | heq
  · exact .inl hlt
  · exact .inr ⟨heq, by omega⟩

theorem Good.refuse (h : Good cl σ n a₀ r) (req : RequestVoteRequest) (t : Nat) :
    Good cl σ n a₀ (replyVote n req t false r) :=
  h.send fun _ hg => by cases hg

theorem considerVote_good (h : Good cl σ n a₀ r)
    (hsent : Msg.requestVote n req ∈ σ.sent) (hterm : r.stable.currentTerm = req.term) :
    Good cl σ n a₀ (considerVote n req r) := by
  obtain ⟨a, ht, hv⟩ := id h
  obtain ⟨haddr, l, hcamp, hlast, hlen⟩ := ht.core.msgs _ (List.mem_append_left _ hsent)
  unfold considerVote
  split_ifs with h₁ hvoted h₂ h₃
  · exact h.refuse req _
  · refine ⟨a, ht.send fun hg => ?_, hv⟩
    obtain ⟨c, hc, hvote⟩ := ht.ballot.cast req.addr (by simpa using hg)
    obtain rfl : c = req.id := cl.localAddr_injective (hc.trans haddr)
    rwa [hvoted.1] at hvote
  · exact h.refuse req _
  · exact h.refuse req _
  · have hcur : a.cur n = req.term := ht.cur.trans hterm
    have hup : cl.scheme.UpToDate _ r.stable.logs := upToDate_of_checks hlast hlen h₂ h₃
    rw [← ht.log] at hup
    have hnew := ht.vote_eq_none (by rwa [hterm])
    have hs : LeaderLog.Step cl.scheme n a (a.grant n req.id) := .grant hnew (hcur ▸ hcamp) hup
    have hv' := hv.run ht.inv (.single hs) (fun _ => id) fun _ _ => rfl
    rw [haddr, ← hterm]
    refine ⟨a.grant n req.id, (ht.persistVote hnew (hcur ▸ hcamp) hup).send fun _ => ?_, ?_, ?_⟩
    · simp [History.grant, hcur]
    · exact { hv'.log with }
    · exact hv'.role.congr rfl rfl rfl rfl rfl rfl

theorem requestVote_good (h : Good cl σ n a₀ r) (hsent : Msg.requestVote n req ∈ σ.sent) :
    Good cl σ n a₀ (requestVote n req r) := by
  unfold requestVote
  dsimp only
  split_ifs with h₁ h₂ h₃ h₄
  · exact h.refuse req _
  · exact h.refuse req _
  · exact h.refuse req _
  · exact considerVote_good (h.follow h₄.le) hsent rfl
  · exact considerVote_good h hsent (by omega)

theorem requestPreVote_good (h : Good cl σ n a₀ r) (req : RequestPreVoteRequest) :
    Good cl σ n a₀ (requestPreVote n req r) := by
  unfold requestPreVote
  dsimp only
  split_ifs <;> exact h.send fun _ => trivial

/-! ## Becoming a candidate -/

/-- A candidate that asks for permission must not be told to stand without it; see `timeoutNow`. -/
def AsksPermission (v : Volatile) : Prop := ∃ c, v.campaign = some c ∧ c.stage = .preVote

theorem timeoutNow_good (h : Good cl σ n a₀ r) (hno : ¬AsksPermission r.vol) :
    Good cl σ n a₀ (timeoutNow r) := by
  refine h.setVol (fun _ hl => { hl with }) fun a hrole => ?_
  unfold RoleOk at hrole ⊢
  cases hr : r.vol.role with
  | follower => trivial
  | leader ls => trivial
  | candidate c =>
    cases c with
    | none => trivial
    | some c =>
      rw [hr] at hrole
      cases hst : c.stage with
      | preVote => exact absurd ⟨c, by rw [Volatile.campaign, hr], hst⟩ hno
      | vote =>
        simp only [hst] at hrole ⊢
        exact hrole

theorem heartbeatTimeout_good (h : Good cl σ n a₀ r) : Good cl σ n a₀ (heartbeatTimeout n r) := by
  unfold heartbeatTimeout
  split
  · dsimp only
    split_ifs
    · exact h.setLeader []
    · exact h.setLeader []
    · exact (h.setLeader []).setVol (fun _ hl => { hl with }) fun _ _ => trivial
    · exact h.setLeader []
  · exact h

theorem electionTimeout_good (h : Good cl σ n a₀ r) : Good cl σ n a₀ (electionTimeout r) := by
  unfold electionTimeout
  split
  · exact h.setVol (fun _ hl => { hl with }) fun _ _ => trivial
  · exact h

theorem Tracks.nodup_voters (ht : Tracks cl σ n a₀ a r) :
    (confsOf r.stable.logs).latest.voters.Nodup := by
  rcases confsOf_cases ht.indexed with ⟨heq, -⟩ | ⟨l₁, e, l₂, c, hl, hc, -, heq⟩ <;> rw [heq]
  · exact List.nodup_nil
  · exact (valid_of_rooted ht.inv ht.rooted (hl ▸ List.mem_append_right _ List.mem_cons_self)
      hc).nodup_voters

theorem Tracks.askForVote (req : RequestVoteRequest) {l : List Log} (hid : req.id = n)
    (haddr : req.addr = cl.localAddr n) (hlast : req.lastLogTerm = cl.scheme.lastTerm l)
    (hlen : req.lastLogIndex = l.length) (hterm : req.term = r.stable.currentTerm)
    (hlogs : r.stable.logs = l)
    (voters : List ServerID) (hnodup : voters.Nodup) (ht : Tracks cl σ n a₀ a r)
    (hcamp : a.camp n req.term = some l) (hnew : n ∈ voters → a.vote n req.term = none) :
    Tracks cl σ n a₀ (if n ∈ voters then a.grant n n else a) (voters.foldl (askForVote n req) r) ∧
      (voters.foldl (askForVote n req) r).vol = r.vol ∧
      (voters.foldl (askForVote n req) r).stable.logs = r.stable.logs ∧
      (voters.foldl (askForVote n req) r).stable.currentTerm = r.stable.currentTerm := by
  induction voters generalizing r a with
  | nil => exact ⟨ht, rfl, rfl, rfl⟩
  | cons v voters ih =>
    obtain ⟨hv, hnodup⟩ := List.nodup_cons.mp hnodup
    rw [List.foldl_cons, Raft.askForVote]
    by_cases hvn : v = n
    · subst hvn
      have hcur : a.cur v = req.term := ht.cur.trans hterm.symm
      have hup : cl.scheme.UpToDate l (a.log v) := by
        rw [ht.log, hlogs]
        exact cl.scheme.upToDate_refl l
      have ht' := ht.persistVote (hcur ▸ hnew List.mem_cons_self) (hcur ▸ hcamp) hup
      rw [if_pos rfl, hterm, haddr]
      obtain ⟨htr, hvol, hlog, hct⟩ :=
        ih (r := r.persistVote r.stable.currentTerm (cl.localAddr v)) hterm hlogs hnodup
        ht' hcamp fun hmem => absurd hmem hv
      rw [if_neg hv] at htr
      rw [if_pos List.mem_cons_self]
      exact ⟨htr, hvol, hlog, hct⟩
    · rw [if_neg hvn]
      have ht' := ht.send (m := .requestVote v req) ⟨hid ▸ haddr, l, hid ▸ hcamp, hlast, hlen⟩
      obtain ⟨htr, hvol, hlog, hct⟩ :=
        ih (r := r.send (.requestVote v req)) hterm hlogs hnodup ht' hcamp
        fun hmem => hnew (List.mem_cons_of_mem _ hmem)
      have hmem : n ∈ v :: voters ↔ n ∈ voters := by simp [Ne.symm hvn]
      simp only [hmem]
      exact ⟨htr, hvol, hlog, hct⟩

theorem electSelf_good (h : Good cl σ n a₀ r) {votesNeeded : Nat}
    (hneeded : votesNeeded = quorumSize r.vol.configurations.latest) :
    Good cl σ n a₀ (electSelf cl n votesNeeded r) := by
  obtain ⟨a, ht, hv⟩ := h
  have hlatest := hv.log.confs.latest.1
  obtain ⟨T, hT⟩ : ∃ T, T = r.stable.currentTerm + 1 := ⟨_, rfl⟩
  have hfresh : a.cur n < T := by rw [ht.cur]; omega
  have hcur : (a.tick n T).cur n = T := by simp [History.tick]
  have hcamp : (a.tick n T).camp n ((a.tick n T).cur n) = none := by
    rw [hcur]
    cases hc : a.camp n T with
    | none => exact hc
    | some l => exact absurd (ht.inv.camp n T l hc).1 hfresh.not_ge
  have hvote : a.vote n T = none := by
    cases hc : a.vote n T with
    | none => rfl
    | some c => exact absurd (ht.inv.vote n T c hc).1 hfresh.not_ge
  have hboss : a.boss T ≠ some n := fun hb => absurd (ht.inv.boss T n hb).2 hfresh.not_ge
  have htick : Tracks cl σ n a₀ (a.tick n T) (r.setCurrentTerm T) := ht.tick (by omega)
  have hcampaign : Tracks cl σ n a₀ ((a.tick n T).campaign n) (r.setCurrentTerm T) := by
    refine htick.ghost (.campaign hcamp fun x hx => ?_) rfl rfl rfl
    rw [hcur]
    exact (ht.inv.log_term n x hx).trans_lt hfresh
  have hcamp' : ((a.tick n T).campaign n).camp n T = some r.stable.logs := by
    rw [← ht.log]
    simp [History.campaign, History.tick]
  have hnodup := ht.nodup_voters
  rw [← hlatest] at hnodup
  let req : RequestVoteRequest :=
    { cl.rpcHeader n with
      term := T
      lastLogIndex := r.stable.lastIndex
      lastLogTerm := r.stable.lastTerm
      leadershipTransfer := r.vol.candidateFromLeadershipTransfer }
  obtain ⟨htr, hvol, hlog, hct⟩ :=
    Tracks.askForVote (n := n) (r := r.setCurrentTerm T) req rfl rfl rfl rfl rfl
    rfl r.vol.configurations.latest.voters hnodup hcampaign hcamp' fun _ => hvote
  have hdef : electSelf cl n votesNeeded r =
      (r.vol.configurations.latest.voters.foldl (askForVote n req) (r.setCurrentTerm T)).setVol
        fun v => { v with
          role := .candidate
            (some ⟨.vote, T, r.vol.configurations.latest.voters, 0, votesNeeded⟩) } := by
    subst hT
    rfl
  rw [hdef]
  generalize r.vol.configurations.latest.voters.foldl (askForVote n req)
    (r.setCurrentTerm T) = r' at *
  replace hct : r'.stable.currentTerm = T := hct
  replace hvol : r'.vol = r.vol := hvol
  refine ⟨_, htr.setVol _, ?_, ?_⟩
  · have hlog' : LogOk a r'.stable r'.vol := by
      rw [hvol]
      exact hv.log.of_stable hlog (by omega)
    refine { hlog'.of_lead_eq ?_ ?_ with }
    · split_ifs <;> rfl
    · split_ifs <;> rfl
  · refine ⟨hct.symm, ?_, ⟨r.stable.logs, ∅, ?_, fun _ => hlog, ?_, hnodup, ?_, rfl, ?_⟩,
      fun hn => ?_⟩
    · split_ifs <;> exact hboss
    · split_ifs <;> exact hcamp'
    · rw [hneeded, hlatest]
    · rw [hlatest]
      exact fun v hv => hv
    · exact fun v hv => by cases hv
    · rw [if_pos hn]
      simp [History.grant, History.campaign, History.tick]

theorem askForPreVote_good (h : Good cl σ n a₀ r) (req : RequestPreVoteRequest)
    (voters : List ServerID) :
    Good cl σ n a₀ (voters.foldl (askForPreVote n req) r) ∧
      (voters.foldl (askForPreVote n req) r).toNode = r.toNode := by
  induction voters generalizing r with
  | nil => exact ⟨h, rfl⟩
  | cons v voters ih =>
    rw [List.foldl_cons, askForPreVote]
    split_ifs
    · exact ih h
    · exact ih (h.send fun _ => trivial)

theorem runCandidate_good (h : Good cl σ n a₀ r) : Good cl σ n a₀ (runCandidate cl n r) := by
  unfold runCandidate
  split
  · dsimp only
    split_ifs with hpre
    · unfold preElectSelf
      obtain ⟨hgood, hnode⟩ := askForPreVote_good h _ r.vol.configurations.latest.voters
      refine hgood.setVol (fun _ hl => { hl with }) fun a _ => ?_
      simp only [RoleOk, hnode, true_and]
      simpa using hpre.2
    · exact electSelf_good h rfl
  · exact h

theorem preVoteResult_good (h : Good cl σ n a₀ r) {c : Campaign} (hc : r.vol.campaign = some c)
    (hst : c.stage = .preVote) (voter : ServerID)
    (resp : RequestPreVoteResponse) : Good cl σ n a₀ (preVoteResult cl n voter resp r) := by
  obtain ⟨a, ht, hv⟩ := id h
  have hrole := hv.role
  unfold preVoteResult
  split
  · next c' hc' =>
    obtain rfl : c' = c := by simpa [Volatile.campaign, hc'] using hc
    simp only [RoleOk, hc', hst] at hrole
    split_ifs with hnewer hwon
    · exact h.follow (by omega)
    · exact electSelf_good h hrole.2.1
    · refine ⟨a, ht.setVol _, { hv.log with }, ?_⟩
      simp only [RoleOk, Run.setVol, Campaign.count, hst]
      exact hrole
  · exact h

end

end KvRaft.Raft
