import KvRaft.Raft.LeaderProof

/-! # Replication routines keep to the history

A routine sends a part of the leader's log that begins where the follower's log may leave it
(`setupAppendEntries_ok`). An answer moves the place it sends from: behind the last entry the
follower took, or back where it may leave the leader's log (`roundReply_good`). -/

namespace KvRaft.Raft

open LeaderLog

section
variable {cl : Cluster} {σ : System} {n : ServerID} {a₀ a : Hist} {r : Run}

/-! ## Requests -/

variable {t k : Nat} {ls : LeaderState} {peer : ServerID} {req : AppendEntriesRequest}
  {s : Replication}

theorem previousLog_ok {s : Stable} (h : Indexed s.logs) {p i : Nat}
    (hprev : previousLog s (p + 1) = some (i, t)) :
    i = p ∧ p ≤ s.logs.length ∧ ∀ q, p = q + 1 → ∃ x, s.logs[q]? = some x ∧ x.term = t := by
  unfold previousLog at hprev
  split_ifs at hprev with hone
  · cases hprev
    obtain rfl : p = 0 := by omega
    exact ⟨rfl, Nat.zero_le _, fun q hq => by cases hq⟩
  · obtain ⟨q, rfl⟩ : ∃ q, p = q + 1 := ⟨p - 1, by omega⟩
    rw [Nat.add_sub_cancel, getLog_succ] at hprev
    obtain ⟨x, hx, heq⟩ := Option.map_eq_some_iff.mp hprev
    cases heq
    refine ⟨h q x hx, (List.getElem?_eq_some_iff.mp hx).1, fun q' hq' => ?_⟩
    cases hq'
    exact ⟨x, hx, rfl⟩

theorem setupAppendEntries_ok (ht : Tracks cl σ n a₀ a r) (hlog : LogOk a r.stable r.vol)
    (hl : LeaderOk a n r.stable r.vol ls) {p last : Nat}
    (hreq : setupAppendEntries cl n r.toNode (p + 1) last = some req)
    (hbehind : Behind a peer r.stable.currentTerm p) (hlast : a.base r.stable.currentTerm < last) :
    req.term = r.stable.currentTerm ∧ req.prevLogEntry = p ∧ SliceOk a peer req := by
  unfold setupAppendEntries at hreq
  obtain ⟨⟨i, t⟩, hprev, hreq⟩ := Option.bind_eq_some_iff.mp hreq
  obtain ⟨entries, hentries, hreq⟩ := Option.bind_eq_some_iff.mp hreq
  cases hreq
  obtain ⟨rfl, hp, hterm⟩ := previousLog_ok ht.indexed hprev
  obtain ⟨hes, hcount⟩ := logsFrom_eq hentries
  have hmax := cl.maxAppendEntries_pos
  refine ⟨rfl, rfl, ⟨?_, ?_, ?_, hbehind, fun hnil => ?_, ?_⟩⟩
  · exact hl.lead ▸ hp
  · dsimp only
    rw [History.upTo, hl.lead, hes, ← List.take_add]
    exact List.take_prefix _ _
  · exact fun q hq => hl.lead ▸ hterm q hq
  · dsimp only at hnil ⊢
    rw [hnil, List.length_nil] at hcount
    omega
  · dsimp only
    rw [hl.lead]
    exact hlog.settled

theorem SliceOk.not_empty (h : SliceOk a peer req) : ¬Empty req := by
  rintro ⟨hzero, hnil, -⟩
  have := h.nonempty hnil
  omega

/-! ## One routine of a leader -/

theorem withRoutine_good (h : Good cl σ n a₀ r) {f : LeaderState → Replication → Run}
    (hf : ∀ a ls s, r.vol.routine k = some s → Tracks cl σ n a₀ a r → VolOk a n r.stable r.vol →
      LeaderOk a n r.stable r.vol ls → RoutineOk a r.stable.currentTerm s →
        Good cl σ n a₀ (f ls s)) :
    Good cl σ n a₀ (withRoutine k r f) := by
  unfold withRoutine
  split
  · next ls hr =>
    split
    · next s hs =>
      obtain ⟨a, ht, hv⟩ := h
      have hl : LeaderOk a n r.stable r.vol ls := by
        have hrole := hv.role
        rwa [RoleOk, hr] at hrole
      exact hf a ls s (by rw [Volatile.routine, hr]; exact hs) ht hv hl
        (hl.repl s (List.mem_of_getElem? hs))
    · exact h
  · exact h

theorem Leads.setRoutine {s : Stable} {v : Volatile} (h : Leads a n s v ls) (k : Nat)
    {routine : Replication} (hr : RoutineOk a s.currentTerm routine) :
    Leads a n s v (ls.setRoutine k routine) :=
  { h with
    repl := fun r' hr' => by
      rcases List.mem_or_eq_of_mem_set hr' with hold | rfl
      · exact h.repl r' hold
      · exact hr }

theorem Tracks.setRoutine_good (ht : Tracks cl σ n a₀ a r) (hlog : LogOk a r.stable r.vol)
    (hl : LeaderOk a n r.stable r.vol ls) (k : Nat) (hs : RoutineOk a r.stable.currentTerm s) :
    Good cl σ n a₀ (r.setLeaderState (ls.setRoutine k s)) :=
  ht.good_leader hlog ⟨hl.toLeads.setRoutine k hs, hl.base_lt⟩

theorem RoutineOk.setMode (h : RoutineOk a t s) {m : Mode}
    (hm : ModeOk a t s.peer s.nextIndex m) : RoutineOk a t { s with mode := m } :=
  { h with mode := hm }

theorem RoutineOk.roundOver (h : RoutineOk a t s) (lastRound : Bool) :
    RoutineOk a t (roundOver lastRound s) := by
  unfold Raft.roundOver
  split_ifs with hlast hpipe
  · exact h.setMode trivial
  · exact { h with synced := (fun hf => by cases hf), mode := ⟨h.next_pos, h.synced hpipe⟩ }
  · exact h.setMode trivial

theorem RoutineOk.checkMore (h : RoutineOk a t { s with mode := .idle }) {lastIndex : Nat}
    (hlast : a.base t < lastIndex) (lastRound : Bool) :
    RoutineOk a t (checkMore lastIndex lastRound s) := by
  unfold Raft.checkMore
  split_ifs
  · exact h.setMode trivial
  · exact h.setMode hlast
  · exact h.roundOver lastRound

theorem startRound_good (h : Good cl σ n a₀ r) (k : Nat) : Good cl σ n a₀ (startRound k r) := by
  refine withRoutine_good h fun a ls s _ ht hv hl hs => ?_
  split
  · exact ht.setRoutine_good hv.log hl k (hs.setMode hl.base_lt)
  · exact h

theorem stopRound_good (h : Good cl σ n a₀ r) (k : Nat) : Good cl σ n a₀ (stopRound k r) := by
  refine withRoutine_good h fun a ls s _ ht hv hl hs => ?_
  dsimp only
  split
  · next maxIndex _ hstop =>
    refine ht.setRoutine_good hv.log hl k (hs.setMode ?_)
    split_ifs with hpos
    · exact (hs.stop maxIndex hstop).resolve_left hpos.ne'
    · trivial
  · exact h

theorem routineFailed_good (h : Good cl σ n a₀ r) (k : Nat) :
    Good cl σ n a₀ (routineFailed k r) := by
  refine withRoutine_good h fun a ls s _ ht hv hl hs => ?_
  split
  · exact ht.setRoutine_good hv.log hl k (hs.roundOver _)
  · exact ht.setRoutine_good hv.log hl k (hs.setMode trivial)
  · exact h

/-! ## Sending -/

theorem Tracks.sendEntries (ht : Tracks cl σ n a₀ a r) (hlog : LogOk a r.stable r.vol)
    (hl : LeaderOk a n r.stable r.vol ls) {next last : Nat} (hpos : 0 < next)
    (hreq : setupAppendEntries cl n r.toNode next last = some req)
    (hbehind : Behind a peer r.stable.currentTerm (next - 1))
    (hlast : a.base r.stable.currentTerm < last) :
    Tracks cl σ n a₀ a (r.send (.appendEntries peer req)) ∧ req.term = r.stable.currentTerm ∧
      req.prevLogEntry + 1 = next ∧ ¬Empty req := by
  obtain ⟨p, rfl⟩ : ∃ p, next = p + 1 := ⟨next - 1, by omega⟩
  obtain ⟨hterm, hprev, hslice⟩ := setupAppendEntries_ok ht hlog hl hreq hbehind hlast
  have hne := (ht.inv.boss _ _ hl.boss).1
  exact ⟨ht.send ⟨hterm ▸ hne, .inr hslice⟩, hterm, by rw [hprev], hslice.not_empty⟩

theorem sendRound_good (h : Good cl σ n a₀ r) (k : Nat) : Good cl σ n a₀ (sendRound cl n k r) := by
  refine withRoutine_good h fun a ls s _ ht hv hl hs => ?_
  have hmode := hs.mode
  split
  · next lastIndex lastRound hm =>
    rw [hm] at hmode
    split
    · next req hreq =>
      obtain ⟨hsend, hterm, hprev, hne⟩ := ht.sendEntries hv.log hl hs.next_pos hreq hs.behind hmode
      exact hsend.setRoutine_good hv.log hl k (hs.setMode ⟨hmode, hterm, hprev, hne⟩)
    · exact ht.setRoutine_good hv.log hl k (hs.roundOver _)
  · exact h

theorem pipelineSend_good (h : Good cl σ n a₀ r) (k : Nat) :
    Good cl σ n a₀ (pipelineSend cl n k r) := by
  refine withRoutine_good h fun a ls s _ ht hv hl hs => ?_
  have hmode := hs.mode
  split
  · next next hm =>
    rw [hm] at hmode
    split
    · next req hreq =>
      obtain ⟨hsend, -⟩ := ht.sendEntries hv.log hl hmode.1 hreq hmode.2.behind hl.base_lt
      refine hsend.setRoutine_good hv.log hl k (hs.setMode ⟨?_, hmode.2⟩)
      cases req.entries.getLast? with
      | none => exact hmode.1
      | some last => exact Nat.succ_pos _
    · exact ht.setRoutine_good hv.log hl k (hs.setMode trivial)
  · exact h

theorem pipelineStop_good (h : Good cl σ n a₀ r) (k : Nat) :
    Good cl σ n a₀ (pipelineStop cl n k r) := by
  refine withRoutine_good h fun a ls s _ ht hv hl hs => ?_
  have hmode := hs.mode
  dsimp only
  split
  · next next maxIndex hm hstop =>
    rw [hm] at hmode
    have hdone : RoutineOk a r.stable.currentTerm { s with mode := .idle, stop := some 0 } := by
      refine { hs with mode := trivial, stop := fun last hl => .inl ?_ }
      cases hl
      rfl
    split
    · next req hreq =>
      split_ifs with hpos
      · have hlast := (hs.stop maxIndex hstop).resolve_left hpos.ne'
        obtain ⟨hsend, -⟩ := ht.sendEntries hv.log hl hmode.1 hreq hmode.2.behind hlast
        exact hsend.setRoutine_good hv.log hl k hdone
      · exact ht.setRoutine_good hv.log hl k hdone
    · exact ht.setRoutine_good hv.log hl k hdone
  · exact h

theorem heartbeat_good (h : Good cl σ n a₀ r) (k : Nat) : Good cl σ n a₀ (heartbeat cl n k r) := by
  refine withRoutine_good h fun a ls s _ ht hv hl hs => ?_
  split
  · exact h
  · have hne := (ht.inv.boss _ _ hl.boss).1
    exact ⟨a, ht.send ⟨hne, .inl ⟨rfl, rfl, rfl⟩⟩, hv⟩

theorem transferLeadership_good (h : Good cl σ n a₀ r) (k : Nat) :
    Good cl σ n a₀ (transferLeadership k r) := by
  refine withRoutine_good h fun a ls s _ ht hv hl hs => ?_
  split_ifs
  · exact h.send fun _ => trivial
  · exact h

/-! ## Answers -/

theorem updateLastAppended_peer (req : AppendEntriesRequest) (ls : LeaderState) (s : Replication) :
    (updateLastAppended req ls s).2.peer = s.peer := by
  unfold updateLastAppended
  split <;> rfl

theorem updateLastAppended_mode (req : AppendEntriesRequest) (ls : LeaderState) (s : Replication) :
    (updateLastAppended req ls s).2.mode = s.mode := by
  unfold updateLastAppended
  split <;> rfl

theorem updateLastAppended_ok
    (ht : Tracks cl σ n a₀ a r) (hlog : LogOk a r.stable r.vol)
    (hl : LeaderOk a n r.stable r.vol ls)
    (hs : RoutineOk a r.stable.currentTerm s) (hsync : Synced a s.peer r.stable.currentTerm)
    (hack : ∀ last, req.entries.getLast? = some last →
      last.index ≤ a.ack s.peer r.stable.currentTerm) :
    ∃ a', Tracks cl σ n a₀ a' r ∧ cl.Steps n a a' ∧ LogOk a' r.stable r.vol ∧
      LeaderOk a' n r.stable r.vol (updateLastAppended req ls s).1 ∧
      RoutineOk a' r.stable.currentTerm { (updateLastAppended req ls s).2 with mode := .idle } := by
  unfold updateLastAppended
  cases hlast : req.entries.getLast? with
  | none => exact ⟨a, ht, .refl, hlog, hl, hs.setMode trivial⟩
  | some last =>
    obtain ⟨a', ht', hsteps, hlead, hl'⟩ := hl.toLeads.matched_all ht hlog (hack last hlast)
    have hne := (ht.inv.boss _ _ hl.boss).1
    have hs' := hs.run ht.inv hsteps hne
    refine ⟨a', ht', hsteps, hlog.run ht.inv hsteps, ⟨hl', ?_⟩, ?_⟩
    · rw [(Extends.run ht.inv hsteps).base _ hne]
      exact hl.base_lt
    · exact ⟨Nat.succ_pos _, (hsync.run ht.inv hsteps).behind, hs'.synced, trivial, hs'.stop⟩

theorem roundReply_good (h : Good cl σ n a₀ r) {resp : AppendEntriesResponse}
    {lastIndex : Nat} {lastRound : Bool} (hk : r.vol.routine k = some s)
    (hm : s.mode = .waiting lastIndex lastRound req)
    (hsent : .appendEntriesReply s.peer req resp ∈ σ.sent) :
    Good cl σ n a₀ (roundReply k resp r) := by
  refine withRoutine_good h fun a ls s' hk' ht hv hl hs => ?_
  obtain rfl : s = s' := Option.some.inj (hk.symm.trans hk')
  have hmode := hs.mode
  rw [hm] at hmode ⊢
  obtain ⟨hlast, hterm, hprev, hnonempty⟩ := hmode
  obtain ⟨-, hok, hrefused⟩ := ht.core.msgs _ (List.mem_append_left _ hsent)
  dsimp only
  split_ifs with hnewer hsuccess
  · exact ht.setRoutine_good hv.log hl k (hs.setMode trivial)
  · obtain ⟨hsync, hack⟩ := hok hsuccess
    rw [hterm] at hsync hack
    replace hsync := hsync.resolve_left hnonempty
    obtain ⟨a', ht', hsteps, hlog', hl', hs'⟩ := updateLastAppended_ok ht hv.log hl hs hsync hack
    refine ht'.setRoutine_good hlog' hl' k (RoutineOk.checkMore ?_ ?_ lastRound)
    · refine { hs' with synced := fun _ => ?_ }
      rw [updateLastAppended_peer]
      exact hsync.run ht.inv hsteps
    · rw [(Extends.run ht.inv hsteps).base _ (ht.inv.boss _ _ hl.boss).1]
      exact hlast
  · have hback := (hrefused (by simpa using hsuccess)).resolve_left hnewer
    rw [hterm] at hback
    refine ht.setRoutine_good hv.log hl k (RoutineOk.checkMore ?_ hlast lastRound)
    refine { hs with
      mode := trivial, next_pos := one_pos.trans_le (le_max_right _ _), behind := ?_ }
    have := hback.behind
    rwa [show req.prevLogEntry = s.nextIndex - 1 by omega] at this

theorem pipelineReply_good (h : Good cl σ n a₀ r)
    {resp : AppendEntriesResponse} (hk : r.vol.routine k = some s)
    (hsent : .appendEntriesReply s.peer req resp ∈ σ.sent)
    (hterm : req.term = r.stable.currentTerm) :
    Good cl σ n a₀ (pipelineReply k req resp r) := by
  refine withRoutine_good h fun a ls s' hk' ht hv hl hs => ?_
  obtain rfl : s = s' := Option.some.inj (hk.symm.trans hk')
  have hmode := hs.mode
  split
  · next next hm =>
    rw [hm] at hmode
    split_ifs with hfailed
    · exact ht.setRoutine_good hv.log hl k (hs.setMode trivial)
    · rw [not_or, not_not] at hfailed
      obtain ⟨-, hok, -⟩ := ht.core.msgs _ (List.mem_append_left _ hsent)
      have hack := (hok hfailed.2).2
      rw [hterm] at hack
      obtain ⟨a', ht', hsteps, hlog', hl', hs'⟩ :=
        updateLastAppended_ok ht hv.log hl hs hmode.2 hack
      have hmode' : ModeOk a' r.stable.currentTerm (updateLastAppended req ls s).2.peer
          (updateLastAppended req ls s).2.nextIndex (updateLastAppended req ls s).2.mode := by
        rw [updateLastAppended_mode, updateLastAppended_peer, hm]
        exact ⟨hmode.1, hmode.2.run ht.inv hsteps⟩
      exact ht'.setRoutine_good hlog' hl' k { hs' with mode := hmode' }
  · exact h

end

end KvRaft.Raft
