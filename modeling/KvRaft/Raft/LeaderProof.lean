import Mathlib.Data.List.TakeWhile
import KvRaft.Raft.FollowerProof

/-! # Leaders keep to the history

A candidate with enough votes leads a term that has no leader yet (`voteResult_good`). What a leader
takes for committed is held by a majority of the voters of the configuration it counted with
(`CommitmentOk.recalculate`), and it changes the configuration only behind such a commit of its own
term (`changeConfiguration_good`). -/

namespace KvRaft.Raft

open LeaderLog

section
variable {cl : Cluster} {σ : System} {n : ServerID} {a₀ a : Hist} {r : Run}

/-! ## The configuration in force -/

variable {l : List Log} {c : Commitment} {m index : Nat} {server : ServerID} {ls : LeaderState}

theorem scheme_configs_of_none (cl : Cluster) (h : ∀ x ∈ l, x.config = none) :
    cl.scheme.configs l = [] :=
  List.filterMap_eq_nil_iff.mpr h

theorem Core.conf_eq {disk : ServerID → Stable} {sent : List Msg} (h : Core cl a disk sent)
    (hl : Rooted cl.scheme a l) (hne : l ≠ []) :
    cl.scheme.conf l = some (confsOf l).latest ∧ (confsOf l).latest.Valid ∧
      (confsOf l).committedIndex < (confsOf l).latestIndex := by
  have hidx := indexed_of_rooted h.inv hl
  rcases confsOf_cases hidx with ⟨-, hnone⟩ | ⟨l₁, e, l₂, c, rfl, hc, hnone, heq⟩
  · obtain ⟨x, rest, rfl⟩ := List.exists_cons_of_ne_nil hne
    obtain rfl : x = cl.genesis := h.inv.head _ x ((hl 0 x rfl).getElem?_of_some rfl)
    cases hnone cl.genesis List.mem_cons_self
  · rw [heq]
    refine ⟨?_, valid_of_rooted h.inv hl (List.mem_append_right _ List.mem_cons_self) hc, ?_⟩
    · have hlast : cl.scheme.configs (l₁ ++ e :: l₂) = cl.scheme.configs l₁ ++ [c] := by
        rw [← scheme_configs_of_none cl hnone]
        simp [Scheme.configs, Cluster.scheme, hc]
      rw [Scheme.conf, hlast, List.getLast?_concat]
    · exact Nat.lt_succ_of_le (confsOf_le (hidx.of_isPrefix (List.prefix_append _ _)))

theorem configs_take (h : Indexed l) {k : Nat} (hk : (confsOf l).latestIndex ≤ k) :
    cl.scheme.configs (l.take k) = cl.scheme.configs l := by
  have hnone : cl.scheme.configs (l.drop k) = [] :=
    scheme_configs_of_none cl fun x => config_eq_none_of_drop h hk
  conv_rhs => rw [← List.take_append_drop k l, Scheme.configs, List.filterMap_append]
  exact ((congrArg _ hnone).trans (List.append_nil _)).symm

/-! ## Counting acknowledgements -/

/-- The history follows a leader that counts `c'` as committed after `c`. -/
abbrev Counts (cl : Cluster) (σ : System) (n : ServerID) (a₀ a : Hist) (r : Run)
    (voters : Finset ServerID) (c c' : Commitment) : Prop :=
  ∃ a', Tracks cl σ n a₀ a' r ∧ cl.Steps n a a' ∧ a'.lead = a.lead ∧
    CommitmentOk a' r.stable.currentTerm voters c' ∧ c.commitIndex ≤ c'.commitIndex

/-- The commit index rises to what a majority acknowledged. The voters are those of the first `m`
entries of the leader, which may be all but the last one: a new configuration is in the log before
the leader counts with it. -/
theorem CommitmentOk.recalculate (ht : Tracks cl σ n a₀ a r)
    (hboss : a.boss r.stable.currentTerm = some n)
    (hpos : 0 < m) (hm : m ≤ (a.lead r.stable.currentTerm).length)
    (hc : CommitmentOk a r.stable.currentTerm
      (confsOf (a.upTo r.stable.currentTerm m)).latest.voters.toFinset c)
    (hlen : (a.lead r.stable.currentTerm).length ≤ m + 1) :
    Counts cl σ n a₀ a r (confsOf (a.upTo r.stable.currentTerm m)).latest.voters.toFinset c
      c.recalculate := by
  have hne : a.upTo r.stable.currentTerm m ≠ [] := by
    intro hnil
    have := congrArg List.length hnil
    rw [length_upTo hm, List.length_nil] at this
    omega
  obtain ⟨hconf, hvalid, -⟩ := ht.core.conf_eq ((ht.inv.lead_rooted _).take m) hne
  have hvoters := (List.toFinset_nonempty_iff _).mpr hvalid.voters_ne
  -- only the commit index and its notification change
  have hok : ∀ a' : Hist, a'.base = a.base → a'.ack = a.ack →
      (c.recalculate.commitIndex = 0 ∨
        ∃ k, a'.commits r.stable.currentTerm c.recalculate.commitIndex k) →
      (c.recalculate.commitCh = true → 0 < c.recalculate.commitIndex) →
      CommitmentOk a' r.stable.currentTerm
        (confsOf (a.upTo r.stable.currentTerm m)).latest.voters.toFinset
        c.recalculate := by
    intro a' hbase hack hcommitted hnotified
    refine ⟨?_, ?_, ?_, hcommitted, hnotified⟩
    · rw [recalculate_startIndex, hbase, hc.start]
    · rw [recalculate_matchIndexes]
      exact hc.concerns
    · rw [recalculate_matchIndexes, hack]
      exact hc.acks
  rcases recalculate_cases c hc.concerns hvoters with ⟨hsame, hch⟩ | ⟨hlt, hstart, hch, hmaj⟩
  · exact ⟨a, ht, .refl, rfl,
      hok a rfl rfl (hsame ▸ hc.committed) (by rw [hsame, hch]; exact hc.notified), hsame.ge⟩
  · rw [hc.start] at hstart
    have hheld : Held cl.scheme a (a.cur n) c.recalculate.commitIndex m := by
      rw [ht.cur]
      obtain ⟨q, -, hcard, hq⟩ := id hmaj
      obtain ⟨v, hv⟩ := Finset.card_pos.mp (show 0 < q.card by omega)
      obtain ⟨i, hi, hki⟩ := hq hv
      have hk := hki.trans ((hc.acks v i hi).trans (ht.inv.ack v _).1)
      refine ⟨hstart, hk.trans hlen, hk, hm, _, _, hconf, hmaj, ?_⟩
      rintro w ⟨j, hj, hkj⟩
      exact hkj.trans (hc.acks w j hj)
    have hcommit := LeaderLog.Step.commit (ht.cur ▸ hboss : a.boss (a.cur n) = some n) hheld
    exact ⟨_, ht.ghost hcommit rfl rfl rfl, .single hcommit, rfl,
      hok _ rfl rfl (.inr ⟨m, .inr ⟨ht.cur.symm, rfl, rfl⟩⟩) fun _ => by omega, hlt.le⟩

theorem CommitmentOk.matched (ht : Tracks cl σ n a₀ a r)
    (hboss : a.boss r.stable.currentTerm = some n)
    (hpos : 0 < m) (hm : m ≤ (a.lead r.stable.currentTerm).length)
    (hc : CommitmentOk a r.stable.currentTerm
      (confsOf (a.upTo r.stable.currentTerm m)).latest.voters.toFinset c)
    (hlen : (a.lead r.stable.currentTerm).length ≤ m + 1)
    (hack : index ≤ a.ack server r.stable.currentTerm) :
    Counts cl σ n a₀ a r (confsOf (a.upTo r.stable.currentTerm m)).latest.voters.toFinset c
      (c.matched server index) := by
  unfold Commitment.matched
  split
  · next prev hprev =>
    split_ifs with hlt
    · have hc' : CommitmentOk a r.stable.currentTerm
          (confsOf (a.upTo r.stable.currentTerm m)).latest.voters.toFinset
          { c with matchIndexes := c.matchIndexes.insert server index } := by
        refine ⟨hc.start, hc.concerns.insert (by rw [hprev]; rfl) index, fun p i hi => ?_,
          hc.committed, hc.notified⟩
        rw [OrdMap.get_insert] at hi
        split at hi
        · next heq =>
          cases hi
          rwa [heq]
        · exact hc.acks p i hi
      exact hc'.recalculate ht hboss hpos hm hlen
    · exact ⟨a, ht, .refl, rfl, hc, le_rfl⟩
  · exact ⟨a, ht, .refl, rfl, hc, le_rfl⟩

theorem CommitmentOk.setConfiguration (ht : Tracks cl σ n a₀ a r)
    (hboss : a.boss r.stable.currentTerm = some n)
    {voters : Finset ServerID} (hc : CommitmentOk a r.stable.currentTerm voters c)
    (hne : a.lead r.stable.currentTerm ≠ []) :
    Counts cl σ n a₀ a r (confsOf (a.lead r.stable.currentTerm)).latest.voters.toFinset c
      (c.setConfiguration (confsOf (a.lead r.stable.currentTerm)).latest) := by
  have hall :
      a.upTo r.stable.currentTerm (a.lead r.stable.currentTerm).length =
        a.lead r.stable.currentTerm :=
    List.take_length
  unfold Commitment.setConfiguration
  generalize hconf : (confsOf (a.lead r.stable.currentTerm)).latest = conf
  have hc' : CommitmentOk a r.stable.currentTerm conf.voters.toFinset
      { c with matchIndexes := OrdMap.ofKeys conf.voters fun v =>
        (c.matchIndexes.get v).getD 0 } := by
    refine ⟨hc.start, concerns_ofKeys _ _, fun p i hi => ?_, hc.committed, hc.notified⟩
    simp only [OrdMap.get_ofKeys] at hi
    split at hi
    · cases hi
      cases hp : c.matchIndexes.get p with
      | none => exact Nat.zero_le _
      | some i => exact hc.acks p i hp
    · cases hi
  rw [← hconf, ← hall] at hc'
  obtain ⟨a', ht', hsteps, hlead, hc'', hle⟩ :=
    hc'.recalculate ht hboss (List.length_pos_of_ne_nil hne) le_rfl
    (Nat.le_succ _)
  rw [hall, hconf] at hc'' hle
  exact ⟨a', ht', hsteps, hlead, hc'', hle⟩

/-! ## Storing entries -/

theorem Tracks.appendAll {es : List Log} (ht : Tracks cl σ n a₀ a r)
    (hboss : a.boss (a.cur n) = some n)
    (hterm : ∀ x ∈ es, x.term = a.cur n) (hidx : Indexed (a.lead (a.cur n) ++ es))
    (hfirst : ∀ x ∈ es.head?, ∀ c, x.config = some c →
      c.Valid ∧ Admits cl.scheme a (a.cur n) (a.lead (a.cur n)).length c)
    (hrest : ∀ x ∈ es.tail, x.config = none) :
    ∃ a', Tracks cl σ n a₀ a' r ∧ cl.Steps n a a' ∧ a'.lead (a.cur n) = a.lead (a.cur n) ++ es := by
  induction es generalizing a with
  | nil => exact ⟨a, ht, .refl, (List.append_nil _).symm⟩
  | cons x es ih =>
    have hxterm := hterm x List.mem_cons_self
    have hxconf := hfirst x rfl
    have hlead : (a.append n x).lead (a.cur n) = a.lead (a.cur n) ++ [x] := by simp [History.append]
    have hstep : LeaderLog.Step cl.scheme n a (a.append n x) :=
      .append hboss hxterm ⟨hidx _ x (by simp), fun c hc => (hxconf c hc).1⟩ fun c hc =>
        (hxconf c hc).2
    rw [List.append_cons, ← hlead] at hidx ⊢
    have hfirst' : ∀ y ∈ es.head?, ∀ c, y.config = some c →
        c.Valid ∧
          Admits cl.scheme (a.append n x) (a.cur n) ((a.append n x).lead (a.cur n)).length c := by
      intro y hy c hc
      rw [hrest y (List.mem_of_head? hy)] at hc
      cases hc
    obtain ⟨a', htr, hsteps, heq⟩ :=
      ih (ht.ghost hstep rfl rfl rfl) hboss (fun y hy => hterm y (List.mem_cons_of_mem _ hy))
        hidx hfirst'
      fun y hy => hrest y (List.mem_of_mem_tail hy)
    exact ⟨a', htr, .head hstep hsteps, heq⟩

theorem Tracks.storeLogs (ht : Tracks cl σ n a₀ a r) (es : List Log)
    (hboss : a.boss r.stable.currentTerm = some n)
    (hlead : a.lead r.stable.currentTerm = r.stable.logs)
    (hterm : ∀ x ∈ es, x.term = r.stable.currentTerm) (hidx : Indexed (r.stable.logs ++ es))
    (hfirst : ∀ x ∈ es.head?, ∀ c, x.config = some c →
      c.Valid ∧ Admits cl.scheme a r.stable.currentTerm r.stable.logs.length c)
    (hrest : ∀ x ∈ es.tail, x.config = none) :
    ∃ a', Tracks cl σ n a₀ a' (r.write (.storeLogs es)) ∧ cl.Steps n a a' ∧
      a'.lead r.stable.currentTerm = r.stable.logs ++ es ∧
      (r.stable.logs ++ es).length ≤ a'.ack n r.stable.currentTerm := by
  have hcur := ht.cur
  rw [← hcur] at hboss hlead hterm hfirst ⊢
  rw [← hlead] at hidx hfirst ⊢
  obtain ⟨b, htb, hsteps, hb⟩ := ht.appendAll hboss hterm hidx hfirst hrest
  have hcurb : b.cur n = a.cur n := htb.cur.trans hcur.symm
  have hbne : b.lead (b.cur n) ≠ [] := by
    rw [hcurb]
    exact lead_ne_nil_run ht.inv hsteps (ht.inv.boss _ _ hboss).1
  have hall : b.upTo (b.cur n) (a.lead (a.cur n) ++ es).length = a.lead (a.cur n) ++ es := by
    rw [History.upTo, hcurb, hb, List.take_length]
  have hkeep : ∀ k ≤ r.stable.logs.length, r.stable.logs.take k <+: b.lead (b.cur n) →
      k ≤ (a.lead (a.cur n) ++ es).length := by
    intro k hk _
    rw [List.length_append, hlead]
    omega
  have htw :
      Tracks cl σ n a₀ (b.write n (a.lead (a.cur n) ++ es).length) (r.write (.storeLogs es)) := by
    refine htb.writeLog ?_ hbne hkeep
    rw [hall, hlead]
    rfl
  have hk : (a.lead (a.cur n) ++ es).length ≤ (b.lead (b.cur n)).length := by rw [hcurb, hb]
  have hlog : b.upTo (b.cur n) (a.lead (a.cur n) ++ es).length <+:
      (b.write n (a.lead (a.cur n) ++ es).length).log n := by
    simp [History.write]
  refine ⟨_, htw.ghost (.acknowledge hk hlog) rfl rfl rfl,
    (hsteps.tail (.write hbne (htb.log ▸ hkeep))).tail (.acknowledge hk hlog), hb, ?_⟩
  simp only [History.acknowledge, History.write, hcurb, Function.update_self]
  exact le_max_right _ _

theorem numberLogs_spec (now : Int) (t : Nat) (ds : List LogData) (hl : Indexed l) :
    Indexed (l ++ numberLogs now t l.length ds) ∧
      (∀ x ∈ numberLogs now t l.length ds, x.term = t ∧ x.data ∈ ds) ∧
      (l ++ numberLogs now t l.length ds).length = l.length + ds.length := by
  induction ds generalizing l with
  | nil => exact ⟨by simpa [numberLogs] using hl, (fun x hx => by cases hx), by simp [numberLogs]⟩
  | cons d ds ih =>
    obtain ⟨hidx, hmem, hlen⟩ := ih (hl.concat (x := ⟨l.length + 1, t, d, now⟩) rfl)
    rw [show (l ++ [(⟨l.length + 1, t, d, now⟩ : Log)]).length = l.length + 1 by
      simp] at hidx hmem hlen
    rw [numberLogs, List.append_cons]
    refine ⟨hidx, fun x hx => ?_, by rw [hlen, List.length_cons]; omega⟩
    rcases List.mem_cons.mp hx with rfl | hx
    · exact ⟨rfl, List.mem_cons_self⟩
    · exact ⟨(hmem x hx).1, List.mem_cons_of_mem _ (hmem x hx).2⟩

/-! ## The state of a leader -/

theorem Leads.setCommitment {s : Stable} {v : Volatile} (h : Leads a n s v ls)
    (hc : CommitmentOk a s.currentTerm v.configurations.latest.voters.toFinset c)
    (hle : ls.commitment.commitIndex ≤ c.commitIndex) : Leads a n s v { ls with commitment := c } :=
  { h with
    commitment := hc
    commit_le := h.commit_le.trans (max_le_max le_rfl hle) }

theorem Leads.storeLogs (h : Leads a n r.stable r.vol ls) {a' : Hist} (hinv : Inv cl.scheme a)
    (hrun : cl.Steps n a a') {es : List Log}
    (hlead : a'.lead r.stable.currentTerm = r.stable.logs ++ es) :
    Leads a' n { r.stable with logs := r.stable.logs ++ es } r.vol
    { ls with inflight := ls.inflight ++ es } := by
  refine { h.run hinv hrun hlead (List.subset_append_left _ _) with inflight := fun x hx => ?_ }
  exact List.mem_append.mpr ((List.mem_append.mp hx).imp_left (h.inflight x))

theorem Leads.matched (h : Leads a n r.stable r.vol ls) (ht : Tracks cl σ n a₀ a r)
    (hpos : 0 < m) (hm : m ≤ r.stable.logs.length) (hlen : r.stable.logs.length ≤ m + 1)
    (hconf : r.vol.configurations.latest = (confsOf (r.stable.logs.take m)).latest)
    (hack : index ≤ a.ack server r.stable.currentTerm) :
    ∃ a', Tracks cl σ n a₀ a' r ∧ cl.Steps n a a' ∧ a'.lead = a.lead ∧
      Leads a' n r.stable r.vol { ls with commitment := ls.commitment.matched server index } := by
  have hc := h.commitment
  rw [hconf, ← h.lead] at hc
  rw [← h.lead] at hm hlen
  obtain ⟨a', ht', hsteps, hlead, hc', hle⟩ := hc.matched ht h.boss hpos hm hlen hack
  rw [History.upTo, h.lead, ← hconf] at hc'
  exact ⟨a', ht', hsteps, hlead,
    (h.run ht.inv hsteps (hlead ▸ h.lead) (List.Subset.refl _)).setCommitment hc' hle⟩

theorem Leads.matched_all (h : Leads a n r.stable r.vol ls) (ht : Tracks cl σ n a₀ a r)
    (hlog : LogOk a r.stable r.vol)
    (hack : index ≤ a.ack server r.stable.currentTerm) :
    ∃ a', Tracks cl σ n a₀ a' r ∧ cl.Steps n a a' ∧ a'.lead = a.lead ∧
      Leads a' n r.stable r.vol { ls with commitment := ls.commitment.matched server index } := by
  have hne : r.stable.logs ≠ [] := h.lead ▸ (ht.inv.boss _ _ h.boss).1
  refine h.matched ht (List.length_pos_of_ne_nil hne) le_rfl (Nat.le_succ _) ?_ hack
  rw [List.take_length]
  exact hlog.confs.latest.1

theorem Tracks.good_leader (ht : Tracks cl σ n a₀ a r) (hlog : LogOk a r.stable r.vol)
    (hl : LeaderOk a n r.stable r.vol ls) : Good cl σ n a₀ (r.setLeaderState ls) :=
  ⟨a, ht.setVol _, { hlog with }, { hl with }⟩

/-! ## Client requests -/

theorem dispatchLogs_good {now : Int} {ds : List LogData} (ht : Tracks cl σ n a₀ a r)
    (hlog : LogOk a r.stable r.vol) (hl : Leads a n r.stable r.vol ls)
    (hds : ∀ c, .configuration c ∉ ds)
    (hbase : a.base r.stable.currentTerm < r.stable.logs.length + ds.length) :
    Good cl σ n a₀ (dispatchLogs n now ls ds r) := by
  unfold dispatchLogs
  obtain ⟨hidx, hmem, hlen⟩ := numberLogs_spec now r.stable.currentTerm ds ht.indexed
  dsimp only [Stable.lastIndex]
  generalize numberLogs now r.stable.currentTerm r.stable.logs.length ds = es at *
  have hnone : ∀ x ∈ es, x.config = none := by
    intro x hx
    unfold Log.config
    split
    · next c hc => exact absurd (hc ▸ (hmem x hx).2) (hds c)
    · rfl
  obtain ⟨b, htb, hsteps, hlead, hack⟩ :=
    ht.storeLogs _ hl.boss hl.lead (fun x hx => (hmem x hx).1) hidx
    (fun x hx c hc => by rw [hnone x (List.mem_of_head? hx)] at hc; cases hc)
    fun x hx => hnone x (List.mem_of_mem_tail hx)
  have hane := (ht.inv.boss _ _ hl.boss).1
  have hlb := hl.storeLogs ht.inv hsteps hlead
  have hlogb : LogOk b (r.write (.storeLogs es)).stable (r.write (.storeLogs es)).vol := by
    have := (hlog.run ht.inv hsteps).store htb.inv htb.rooted htb.log_term
    rwa [foldl_processConfigurationLogEntry_of_none hnone] at this
  rw [← hlen]
  obtain ⟨c, htc, hsteps', -, hlc⟩ :=
    Leads.matched_all (r := r.write (.storeLogs es)) hlb htb hlogb hack
  refine htc.good_leader (hlogb.run htb.inv hsteps') ⟨hlc, ?_⟩
  change c.base r.stable.currentTerm < (r.stable.logs ++ es).length
  rwa [(Extends.run ht.inv (hsteps.trans hsteps')).base _ hane, hlen]

theorem Good.leader (h : Good cl σ n a₀ r) (hr : r.vol.role = .leader ls) :
    ∃ a, Tracks cl σ n a₀ a r ∧ LogOk a r.stable r.vol ∧ LeaderOk a n r.stable r.vol ls := by
  obtain ⟨a, ht, hv⟩ := h
  have hrole := hv.role
  rw [RoleOk, hr] at hrole
  exact ⟨a, ht, hv.log, hrole⟩

theorem applyRequests_good (h : Good cl σ n a₀ r) (requests : List Apply) (now : Int) :
    Good cl σ n a₀ (applyRequests n requests now r) := by
  unfold applyRequests
  split
  · next ls hr =>
    split_ifs
    · exact h
    · obtain ⟨a, ht, hlog, hl⟩ := h.leader hr
      refine dispatchLogs_good ht hlog hl.toLeads (fun c hc => ?_)
        (hl.base_lt.trans_le (Nat.le_add_right _ _))
      obtain ⟨request, -, heq⟩ := List.mem_map.mp hc
      cases request <;> cases heq
  · exact h

theorem setTransferInProgress_good (h : Good cl σ n a₀ r) (b : Bool) :
    Good cl σ n a₀ (setTransferInProgress b r) := by
  unfold setTransferInProgress
  split
  · next ls hr =>
    obtain ⟨a, ht, hlog, hl⟩ := h.leader hr
    exact ht.good_leader hlog { hl with }
  · exact h

theorem stepDown_good (h : Good cl σ n a₀ r) : Good cl σ n a₀ (stepDown r) := by
  unfold stepDown
  split
  · exact h.setFollower
  · exact h

/-! ## Commits -/

theorem processLogs_good (h : Good cl σ n a₀ r) {futures : List Log}
    (hf : ∀ x ∈ futures, x ∈ r.stable.logs)
    (hindex : index ≤ r.vol.commitIndex) : Good cl σ n a₀ (processLogs index futures r) := by
  obtain ⟨a, ht, hv⟩ := h
  rw [processLogs_eq ht.indexed hf (hindex.trans (hv.log.settled.length_le ht.inv)) hv.log.fsm]
  exact ⟨a, ht.setVol _, hv.log.applied hindex, hv.role.congr rfl rfl rfl rfl rfl rfl⟩

theorem processCommit_good (h : Good cl σ n a₀ r) : Good cl σ n a₀ (processCommit n r) := by
  unfold processCommit
  split
  swap
  · exact h
  next ls hr =>
  split_ifs with hch
  swap
  · exact h
  obtain ⟨a, ht, hlog, hl⟩ := h.leader hr
  obtain ⟨m, hcommit⟩ := hl.commitment.committed.resolve_left (hl.commitment.notified hch).ne'
  obtain ⟨hbase, -, hlen, -⟩ := ht.inv.commits _ _ _ hcommit
  have hsettled : Settled a r.stable.logs r.stable.currentTerm ls.commitment.commitIndex :=
    .inr ⟨_, _, m, hcommit, le_rfl, le_rfl, by rw [History.upTo, hl.lead]⟩
  have hle : r.vol.commitIndex ≤ ls.commitment.commitIndex := by
    have := hl.commit_le
    omega
  dsimp only
  generalize hcc : decide (r.vol.commitIndex < r.vol.configurations.latestIndex ∧
    r.vol.configurations.latestIndex ≤ ls.commitment.commitIndex) = configCommitted
  have hconf :
      (if configCommitted = true then r.vol.configurations.setCommitted else r.vol.configurations) =
      r.vol.configurations ∨
      (if configCommitted = true then r.vol.configurations.setCommitted else r.vol.configurations) =
        r.vol.configurations.setCommitted ∧
          r.vol.configurations.latestIndex ≤ ls.commitment.commitIndex := by
    split_ifs with hc
    · rw [hc, decide_eq_true_iff] at hcc
      exact .inr ⟨rfl, hcc.2⟩
    · exact .inl rfl
  have hlog' := hlog.committed hsettled hle hconf
  generalize
    (if configCommitted = true then r.vol.configurations.setCommitted else r.vol.configurations) =
      confs at *
  have hgood : Good cl σ n a₀ ((r.setVol fun v =>
      { v with commitIndex := ls.commitment.commitIndex, configurations := confs }).setLeaderState
      { ls with
        commitment := { ls.commitment with commitCh := false }
        inflight := ls.inflight.dropWhile fun l => l.index ≤ ls.commitment.commitIndex
        stepDown :=
          ls.stepDown || configCommitted && !hasVote r.vol.configurations.latest n }) := by
    refine (ht.setVol _).good_leader hlog'
      ⟨⟨hl.boss, hl.lead, ?_, le_max_right _ _, fun _ => ⟨m, hcommit⟩, ?_, ?_, hl.repl⟩, hl.base_lt⟩
    · refine ⟨hl.commitment.start, ?_, hl.commitment.acks, hl.commitment.committed,
        fun hf => by cases hf⟩
      have hlatest : confs.latest = r.vol.configurations.latest := by
        rcases hconf with rfl | ⟨rfl, -⟩ <;> rfl
      exact hlatest ▸ hl.commitment.concerns
    · change confs.committedIndex ≤ max _ ls.commitment.commitIndex
      rcases hconf with rfl | ⟨rfl, hlatest⟩
      · exact hl.conf_le.trans (max_le_max le_rfl hle)
      · exact le_max_of_le_right hlatest
    · exact fun x hx => hl.inflight x ((List.dropWhile_suffix _).subset hx)
  split
  · next last hlast =>
    refine processLogs_good hgood (fun x hx =>
      hl.inflight x ((List.takeWhile_prefix _).subset hx)) ?_
    have hindex := List.mem_takeWhile_imp (List.mem_of_getLast? hlast)
    exact of_decide_eq_true hindex
  · exact hgood

/-! ## Replication routines of a new configuration -/

theorem mem_startReplication {lastIdx : Nat} {servers : List Server} {repl : List Replication}
    {s : Replication} (h : s ∈ servers.foldl (startReplication n lastIdx) repl) :
    s ∈ repl ∨ ∃ server ∈ servers, server.id ≠ n ∧
      s = ⟨server.id, lastIdx + 1, .idle, false, none⟩ := by
  induction servers generalizing repl with
  | nil => exact .inl h
  | cons server servers ih =>
    rcases ih h with hmem | ⟨server', hmem, hrest⟩
    · unfold startReplication at hmem
      split_ifs at hmem with hskip
      · exact .inl hmem
      · rcases List.mem_append.mp hmem with hold | hnew
        · exact .inl hold
        · rw [List.mem_singleton] at hnew
          exact .inr ⟨server, List.mem_cons_self, fun heq => hskip (.inl heq), hnew⟩
    · exact .inr ⟨server', List.mem_cons_of_mem _ hmem, hrest⟩

/-- New routines begin behind the leader's log, and old ones are told to stop behind an entry
of its term. -/
theorem startStopReplication_ok {t lastIdx : Nat} (hbase : a.base t ≤ lastIdx)
    (hlen : (a.lead t).length ≤ lastIdx)
    {latest : Configuration} {repl : List Replication}
    (hrepl : ∀ s ∈ repl, RoutineOk a t s ∧ a.base t < lastIdx) :
    ∀ s ∈ startStopReplication n latest lastIdx repl, RoutineOk a t s := by
  intro s hs
  obtain ⟨s₀, hmem, rfl⟩ := List.mem_map.mp hs
  rcases mem_startReplication hmem with hold | ⟨server, hserver, hne, rfl⟩
  · obtain ⟨hok, hlt⟩ := hrepl s₀ hold
    unfold stopReplication
    split_ifs
    · refine { hok with stop := fun last hlast => .inr ?_ }
      cases hlast
      exact hlt
    · exact hok
  · have hin : inConfiguration latest server.id = true :=
      List.any_eq_true.mpr ⟨server, hserver, by simp⟩
    rw [stopReplication, if_neg (by simp [hne, hin])]
    exact ⟨Nat.succ_pos _, behind_of_length_le hbase hlen, (fun hf => by cases hf), trivial,
      fun _ hs => by cases hs⟩

/-! ## Winning an election -/

theorem CampaignOk.count {s : Stable} {c : Campaign} (hc : CampaignOk a n s c) {voter : ServerID}
    (hmem : voter ∈ c.waiting) {granted : Bool}
    (hvote : granted = true → a.vote voter c.term = some n) :
    CampaignOk a n s (c.count voter granted) := by
  obtain ⟨l, G, hcamp, hlogs, hneeded, hnodup, hwaiting, hcard, hvotes⟩ := hc.counted
  have hold : ∀ v ∈ G, v ∉ c.waiting.erase voter ∧ v ∈ (confsOf l).latest.voters ∧
      a.vote v c.term = some n := by
    intro v hv
    obtain ⟨hout, hrest⟩ := hvotes v hv
    exact ⟨fun hw => hout (List.mem_of_mem_erase hw), hrest⟩
  have hcounted : ∃ G : Finset ServerID, G.card = (c.count voter granted).granted ∧
      ∀ v ∈ G, v ∉ c.waiting.erase voter ∧ v ∈ (confsOf l).latest.voters ∧
        a.vote v c.term = some n := by
    cases granted with
    | false => exact ⟨G, hcard, hold⟩
    | true =>
      refine ⟨insert voter G, ?_, fun v hv => ?_⟩
      · rw [Finset.card_insert_of_notMem fun hv => (hvotes voter hv).1 hmem, hcard]
        rfl
      · rcases Finset.mem_insert.mp hv with rfl | hv
        · exact ⟨hnodup.not_mem_erase, hwaiting v hmem, hvote rfl⟩
        · exact hold v hv
  obtain ⟨G', hcard', hvotes'⟩ := hcounted
  exact ⟨hc.term, hc.boss, ⟨l, G', hcamp, hlogs, hneeded, hnodup.erase voter,
    fun v hv => hwaiting v (List.mem_of_mem_erase hv), hcard', hvotes'⟩,
      fun hn => hc.own (List.mem_of_mem_erase hn)⟩

/-- With enough votes, a candidate is the first leader of its term, and leads it with
its own log. -/
theorem Tracks.win (ht : Tracks cl σ n a₀ a r) {c : Campaign} (hc : CampaignOk a n r.stable c)
    (hwon : c.votesNeeded ≤ c.granted) :
    Tracks cl σ n a₀ (a.elect n r.stable.logs) r ∧ cl.Steps n a (a.elect n r.stable.logs) := by
  obtain ⟨l, G, hcamp, hlogs, hneeded, -, -, hcard, hvotes⟩ := hc.counted
  have hterm : c.term = a.cur n := hc.term.trans ht.cur.symm
  have hroot := (ht.inv.camp _ _ _ hcamp).2.2
  have hl : l ≠ [] := by
    rintro rfl
    obtain ⟨v, hv⟩ := Finset.card_pos.mp (show 0 < G.card by rw [hcard, quorumSize] at *; omega)
    have := (hvotes v hv).2.1
    cases this
  obtain ⟨hconf, hvalid, -⟩ := ht.core.conf_eq hroot hl
  have hquorum : cl.scheme.Quorum (confsOf l).latest {v | a.vote v c.term = some n} :=
    hvalid.majority (fun v hv => (hvotes v hv).2.1) (by rw [hcard, ← hneeded]; exact hwon)
      fun v hv => (hvotes v hv).2.2
  have hlead : a.lead c.term = [] := by
    by_contra hne
    exact hc.boss (ht.inv.boss_of_votes hcamp hconf hquorum (fun v hv => hv) hne)
  rw [hlogs hlead]
  rw [hterm] at hcamp hlead hquorum
  have hstep : LeaderLog.Step cl.scheme n a (a.elect n l) :=
    .elect hcamp hlead hconf hquorum fun v hv => hv
  exact ⟨ht.ghost hstep rfl rfl rfl, .single hstep⟩

theorem runLeader_good (ht : Tracks cl σ n a₀ a r) (hlog : LogOk a r.stable r.vol) {c : Campaign}
    (hc : CampaignOk a n r.stable c) (hwon : c.votesNeeded ≤ c.granted) (now : Int) :
    Good cl σ n a₀ (runLeader cl n now r) := by
  obtain ⟨ht', hsteps⟩ := ht.win hc hwon
  have hcur := ht.cur
  have hboss : (a.elect n r.stable.logs).boss r.stable.currentTerm = some n := by
    simp [History.elect, hcur]
  have hlead : (a.elect n r.stable.logs).lead r.stable.currentTerm = r.stable.logs := by
    simp [History.elect, hcur]
  have hbase : (a.elect n r.stable.logs).base r.stable.currentTerm = r.stable.logs.length := by
    simp [History.elect, hcur]
  have hlen :
      ((a.elect n r.stable.logs).lead r.stable.currentTerm).length ≤ r.stable.logs.length := by
        rw [hlead]
  have hlog' := hlog.run ht.inv hsteps
  unfold runLeader
  refine dispatchLogs_good (ht'.setVol _) { hlog' with } ?_ (fun c hmem => ?_) ?_
  · refine ⟨hboss, hlead,
      ⟨?_, concerns_ofKeys _ _, fun p i hi => ?_, .inl rfl, fun hf => by cases hf⟩, ?_,
        fun hlt => ?_,
      ?_, List.forall_mem_nil _, ?_⟩
    · exact congrArg (· + 1) hbase.symm
    · simp only [newCommitment, OrdMap.get_ofKeys] at hi
      split at hi
      · cases hi
        exact Nat.zero_le _
      · cases hi
    · exact le_max_of_le_left ((hlog'.settled.length_le ht'.inv).trans hbase.ge)
    · exact absurd (hlog'.settled.length_le ht'.inv) (not_le.mpr (hbase ▸ hlt))
    · exact le_max_of_le_left ((hlog'.confs_settled.length_le ht'.inv).trans hbase.ge)
    · exact startStopReplication_ok hbase.le hlen (List.forall_mem_nil _)
  · simp at hmem
  · change (a.elect n r.stable.logs).base r.stable.currentTerm < _
    rw [hbase]
    exact Nat.lt_succ_self _

theorem voteResult_good (h : Good cl σ n a₀ r) {voter : ServerID} {resp : RequestVoteResponse}
    {c : Campaign} (hc : r.vol.campaign = some c) (hst : c.stage = .vote) (hmem : voter ∈ c.waiting)
    (hresp : voter = n ∧ resp = ⟨c.term, true⟩ ∨ voter ≠ n ∧ resp = ⟨c.term, false⟩ ∨
      voter ≠ n ∧ ∃ req, .requestVoteReply voter req resp ∈ σ.sent ∧ req.id = n ∧ req.term = c.term)
        (now : Int) :
    Good cl σ n a₀ (voteResult cl n voter resp now r) := by
  obtain ⟨a, ht, hv⟩ := id h
  have hrole := hv.role
  unfold voteResult
  split
  swap
  · exact h
  next c' hc' =>
  obtain rfl : c' = c := by simpa [Volatile.campaign, hc'] using hc
  simp only [RoleOk, hc', hst] at hrole
  have hvote : resp.granted = true → a.vote voter c'.term = some n := by
    rcases hresp with ⟨rfl, rfl⟩ | ⟨-, rfl⟩ | ⟨-, req, hsent, rfl, hterm⟩
    · exact fun _ => hrole.own hmem
    · exact fun hf => by cases hf
    · intro hg
      rw [← hterm]
      exact ht.core.msgs _ (List.mem_append_left _ hsent) hg
  have hcount := hrole.count hmem hvote
  split_ifs with hnewer hwon
  · exact h.follow hnewer.le
  · exact runLeader_good ht hv.log hcount hwon now
  · refine ⟨a, ht.setVol _, { hv.log with }, ?_⟩
    simp only [RoleOk, Run.setVol, Campaign.count, hst]
    exact { hcount with }

/-! ## Changes of the configuration -/

/-- The conditions of `configurationChangeChIfStable` are those of the history. -/
theorem LeaderOk.admits (h : LeaderOk a n r.stable r.vol ls) (ht : Tracks cl σ n a₀ a r)
    (hlog : LogOk a r.stable r.vol) (hstable : configurationStable ls r.vol = true)
    {c : Configuration}
    (hnext : Adjacent r.vol.configurations.latest.voters.toFinset c.voters.toFinset) :
    Admits cl.scheme a r.stable.currentTerm r.stable.logs.length c := by
  obtain ⟨hlatest, hstart⟩ := of_decide_eq_true hstable
  rw [h.commitment.start] at hstart
  obtain ⟨m, hcommit⟩ := h.own hstart
  obtain ⟨-, -, hk, hm, -⟩ := ht.inv.commits _ _ _ hcommit
  have hall : a.upTo r.stable.currentTerm r.stable.logs.length = r.stable.logs := by
    rw [History.upTo, h.lead, List.take_length]
  rw [h.lead] at hk hm
  refine ⟨(confsOf r.stable.logs).latest, r.vol.commitIndex, m, ?_, ?_, hcommit, hk, hm, ?_⟩
  · rw [hall]
    exact (ht.core.conf_eq ht.rooted (List.ne_nil_of_length_pos (by have := h.base_lt; omega))).1
  · rw [← hlog.confs.latest.1]
    exact hnext
  · rw [hall, History.upTo, h.lead]
    refine configs_take ht.indexed ?_
    rw [← hlog.confs.latest.2, hlatest]
    have := h.conf_le
    omega

theorem adoptConfiguration_good (ht : Tracks cl σ n a₀ a r) (hlog : LogOk a r.stable r.vol)
    (hl : LeaderOk a n r.stable r.vol ls) (hstable : configurationStable ls r.vol = true)
    {c : Configuration}
    (hvalid : c.Valid)
    (hnext : Adjacent r.vol.configurations.latest.voters.toFinset c.voters.toFinset) (now : Int) :
    Good cl σ n a₀ (adoptConfiguration n c (dispatchLogs n now ls [.configuration c] r)) := by
  obtain ⟨e, he⟩ : ∃ e : Log,
    e = ⟨r.stable.logs.length + 1, r.stable.currentTerm, .configuration c, now⟩ := ⟨_, rfl⟩
  have hec : e.config = some c := by rw [he]; rfl
  have hidx : Indexed (r.stable.logs ++ [e]) := ht.indexed.concat (by rw [he])
  have hpos : 0 < r.stable.logs.length := by
    have := hl.base_lt
    omega
  obtain ⟨b, htb, hstepsb, hleadb, hack⟩ := ht.storeLogs [e] hl.boss hl.lead
    (fun x hx => by rw [List.mem_singleton.mp hx, he]) hidx
    (fun x hx c' hc' => by
      cases hx
      rw [hec] at hc'
      cases hc'
      exact ⟨hvalid, hl.admits ht hlog hstable hnext⟩)
    (List.forall_mem_nil _)
  have hlen : (r.stable.logs ++ [e]).length = r.stable.logs.length + 1 := List.length_append
  rw [hlen] at hack
  have hlb := hl.toLeads.storeLogs ht.inv hstepsb hleadb
  have hconf :
      r.vol.configurations.latest =
        (confsOf ((r.stable.logs ++ [e]).take r.stable.logs.length)).latest := by
    rw [List.take_left]
    exact hlog.confs.latest.1
  -- the leader acknowledges the entry while it still counts with the old configuration
  obtain ⟨b₁, ht₁, hsteps₁, hlead₁, hl₁⟩ :=
    Leads.matched (r := r.write (.storeLogs [e])) hlb htb hpos
    (by simp [Run.write, Write.apply]) (by simp [Run.write, Write.apply]) hconf hack
  have hall : b₁.lead r.stable.currentTerm = r.stable.logs ++ [e] := by rw [hlead₁, hleadb]
  have hlatest : (confsOf (b₁.lead r.stable.currentTerm)).latest = c := by
    rw [hall, confsOf_append, List.foldl_cons, List.foldl_nil,
      processConfigurationLogEntry_of_some hec]
  -- and then counts with the new one
  obtain ⟨b₂, ht₂, hsteps₂, hlead₂, hc₂, hle⟩ := hl₁.commitment.setConfiguration ht₁ hl₁.boss
    (ht₁.inv.boss _ _ hl₁.boss).1
  rw [show (r.write (.storeLogs [e])).stable.currentTerm = r.stable.currentTerm from rfl,
    hlatest] at hc₂ hle
  have hl₂ := hl₁.run ht₁.inv hsteps₂ (hlead₂ ▸ hl₁.lead) (List.Subset.refl _)
  have hsteps := (hstepsb.trans hsteps₁).trans hsteps₂
  have hbase : b₂.base r.stable.currentTerm < r.stable.logs.length + 1 := by
    rw [(Extends.run ht.inv hsteps).base _ (ht.inv.boss _ _ hl.boss).1]
    exact Nat.lt_succ_of_lt hl.base_lt
  have hstore := (hlog.run ht.inv hsteps).store ht₂.inv ht₂.rooted ht₂.log_term
  -- the old one is noted as committed already
  have hcommitted : r.vol.configurations.setCommitted = r.vol.configurations := by
    have hsame := (of_decide_eq_true hstable).1
    rcases hlog.confs with heq | heq <;> rw [heq] at hsame ⊢
    · exact absurd hsame (ht.core.conf_eq ht.rooted (List.ne_nil_of_length_pos hpos)).2.2.ne'
    · rfl
  rw [List.foldl_cons, List.foldl_nil, processConfigurationLogEntry_of_some hec,
    hcommitted] at hstore
  have hindex : e.index = (r.stable.logs ++ [e]).length := by rw [hlen, he]
  rw [hindex] at hstore
  have hrun : adoptConfiguration n c (dispatchLogs n now ls [.configuration c] r) =
      ((r.write (.storeLogs [e])).setVol fun v =>
        { v with
          configurations :=
            { v.configurations with latest := c, latestIndex := (r.stable.logs ++ [e]).length } }
        ).setLeaderState
          { ls with
            inflight := ls.inflight ++ [e]
            commitment := (ls.commitment.matched n (r.stable.logs.length + 1)).setConfiguration c
            repl := startStopReplication n c (r.stable.logs ++ [e]).length ls.repl } := by
    subst he
    rfl
  have hlen₂ : (b₂.lead r.stable.currentTerm).length ≤ (r.stable.logs ++ [e]).length := by
    rw [hlead₂, hall]
  rw [hrun]
  refine (ht₂.setVol _).good_leader hstore
    ⟨⟨hl₂.boss, hl₂.lead, hc₂, ?_, hl₂.own, hl₂.conf_le, hl₂.inflight, ?_⟩, ?_⟩
  · exact hl₂.commit_le.trans (max_le_max le_rfl hle)
  · exact startStopReplication_ok (by omega) hlen₂ fun s hs => ⟨hl₂.repl s hs, by omega⟩
  · exact hbase.trans_eq hlen.symm

theorem changeConfiguration_good (h : Good cl σ n a₀ r) (change : ConfigurationChangeRequest)
    (now : Int) :
    Good cl σ n a₀ (changeConfiguration n change now r) := by
  unfold changeConfiguration
  split
  swap
  · exact h
  next ls hr =>
  split_ifs with hbusy
  · exact h
  split
  · exact h
  · next c hnext =>
    obtain ⟨a, ht, hlog, hl⟩ := h.leader hr
    rw [not_or, not_not] at hbusy
    exact adoptConfiguration_good ht hlog hl hbusy.1 (nextConfiguration_ok hnext).2
      (adjacent_nextConfiguration hnext)
      now

end

end KvRaft.Raft
