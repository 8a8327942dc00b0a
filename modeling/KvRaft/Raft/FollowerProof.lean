import KvRaft.Raft.ElectionProof

/-! # Followers keep to the history

A follower that accepts a request has the leader's log up to the last entry of the request, and
nothing behind it that the leader does not have (`acceptEntries_good`). The commit index of the
request is then one of its own log, although the follower compares nothing behind the entries it
got: the leader's guess where the logs part (`LeaderLog.Behind`) is on the safe side. -/

namespace KvRaft.Raft

open LeaderLog

section
variable {cl : Cluster} {σ : System} {n : ServerID} {a₀ a : Hist} {r : Run}

/-! ## The configuration before the last one -/

variable {l : List Log} {k j : Nat} {s : Stable} {v : Volatile} {a' : Hist}

theorem settled_committedIndex (h : Inv cl.scheme a) (hl : Rooted cl.scheme a l) {τ : Nat}
    (hτ : ∀ x ∈ l, x.term ≤ τ) : Settled a l τ (confsOf l).committedIndex := by
  have hidx := indexed_of_rooted h hl
  rcases confsOf_cases hidx with ⟨heq, -⟩ | ⟨l₁, x, l₂, c, rfl, hc, -, heq⟩ <;> rw [heq]
  · exact settled_zero a _ τ
  change Settled a _ τ (confsOf l₁).latestIndex
  rcases confsOf_cases (hidx.of_isPrefix (List.prefix_append _ _)) with
    ⟨heq, -⟩ | ⟨l₃, w, l₄, c', rfl, hc', -, heq⟩ <;>
    rw [heq]
  · exact settled_zero a _ τ
  have hlen : l₃.length < (l₃ ++ w :: l₄).length := by simp
  have hx : ((l₃ ++ w :: l₄) ++ x :: l₂)[(l₃ ++ w :: l₄).length]? = some x := by simp
  obtain ⟨c₀, d₀, z, k, m, -, hbefore, hcommit, hd₀, -, -, hsame⟩ :=
    h.config_before hl (by omega) hx hc
  have hle := hbefore l₃.length w _ hlen (by simp) hc'
  refine .inr ⟨x.term, k, m, hcommit, hτ x (List.mem_of_getElem? hx), by dsimp only; omega, ?_⟩
  have := congrArg (List.take (l₃.length + 1)) hsame
  rwa [History.upTo, List.take_take, List.take_take, min_eq_left (by omega)] at this

/-! ## What is known about the log, after a change of the log -/

theorem LogOk.clear (h : LogOk a s v) (hidx : Indexed s.logs)
    (hkeep : ∀ i, Settled a s.logs s.currentTerm i → i ≤ k) :
    LogOk a { s with logs := s.logs.take k }
      { v with
        configurations :=
          if k + 1 ≤ v.configurations.latestIndex then
            { v.configurations with
              latest := v.configurations.committed
              latestIndex := v.configurations.committedIndex }
          else v.configurations } := by
  have hconf := hkeep _ h.confs_settled
  have hcommit := hkeep _ h.settled
  have htake : ∀ {i}, i ≤ k → (s.logs.take k).take i = s.logs.take i := fun hi => by
    rw [List.take_take, min_eq_left hi]
  refine ⟨?_, ?_, h.settled.of_take_eq (htake hcommit), h.applied_le, ?_, h.panicked⟩
  · exact h.confs.take hidx (Nat.lt_succ_of_le hconf)
  · dsimp only
    split_ifs
    · exact h.confs_settled.of_take_eq (htake hconf)
    · exact h.confs_settled.of_take_eq (htake hconf)
  · dsimp only
    rw [htake (h.applied_le.trans hcommit)]
    exact h.fsm

theorem LogOk.store (h : LogOk a s v) (hinv : Inv cl.scheme a) {es : List Log}
    (hroot : Rooted cl.scheme a (s.logs ++ es))
    (hterm : ∀ x ∈ s.logs ++ es, x.term ≤ s.currentTerm) :
    LogOk a { s with logs := s.logs ++ es }
      { v with configurations := es.foldl processConfigurationLogEntry v.configurations } := by
  have htake : ∀ {i}, Settled a s.logs s.currentTerm i → (s.logs ++ es).take i = s.logs.take i :=
    fun hs =>
    List.take_append_of_le_length (hs.length_le hinv)
  have hconfs : ConfsOk (s.logs ++ es) (es.foldl processConfigurationLogEntry v.configurations) ∧
      Settled a (s.logs ++ es) s.currentTerm
        (es.foldl processConfigurationLogEntry v.configurations).committedIndex := by
    rcases h.confs.foldl es with heq | ⟨heq, hsame⟩ <;> rw [heq]
    · exact ⟨.inl rfl, settled_committedIndex hinv hroot hterm⟩
    · exact ⟨by rw [ConfsOk, hsame]; exact h.confs,
        h.confs_settled.of_take_eq (htake h.confs_settled)⟩
  refine ⟨hconfs.1, hconfs.2, h.settled.of_take_eq (htake h.settled), h.applied_le, ?_, h.panicked⟩
  · dsimp only
    rw [htake (h.settled.of_le h.applied_le)]
    exact h.fsm

theorem processLogs_eq (hidx : Indexed r.stable.logs) {futures : List Log}
    (hf : ∀ x ∈ futures, x ∈ r.stable.logs) {index : Nat} (hle : index ≤ r.stable.logs.length)
    (hfsm : r.vol.fsm = (r.stable.logs.take r.vol.lastApplied).filter prepareLog) :
    processLogs index futures r = r.setVol fun v =>
      { v with
        fsm := (r.stable.logs.take (max v.lastApplied index)).filter prepareLog
        lastApplied := max v.lastApplied index } := by
  unfold processLogs
  dsimp only
  split_ifs with hold
  · rw [Run.setVol, max_eq_left hold, ← hfsm]
  · rw [collectLogs_eq hidx hf (by omega)]
    dsimp only
    have hsplit : r.stable.logs.take index =
        r.stable.logs.take r.vol.lastApplied ++
          (r.stable.logs.drop r.vol.lastApplied).take (index - r.vol.lastApplied) := by
      rw [← List.take_add, Nat.add_sub_cancel' (by omega)]
    rw [Run.setVol, Run.setVol, max_eq_right (by omega), hfsm, hsplit, List.filter_append]

theorem LogOk.committed (h : LogOk a s v) {commitIndex : Nat}
    (hs : Settled a s.logs s.currentTerm commitIndex) (hle : v.commitIndex ≤ commitIndex)
    {configurations : Configurations} (hconf : configurations = v.configurations ∨
      configurations = v.configurations.setCommitted ∧ v.configurations.latestIndex ≤ commitIndex) :
    LogOk a s { v with commitIndex := commitIndex, configurations := configurations } := by
  refine ⟨?_, ?_, hs, h.applied_le.trans hle, h.fsm, h.panicked⟩
  · rcases hconf with rfl | ⟨rfl, -⟩
    · exact h.confs
    · exact .inr h.confs.setCommitted_eq
  · rcases hconf with rfl | ⟨rfl, hlatest⟩
    · exact h.confs_settled
    · exact hs.of_le hlatest

theorem LogOk.applied (h : LogOk a s v) {index : Nat} (hindex : index ≤ v.commitIndex) :
    LogOk a s
      { v with
        fsm := (s.logs.take (max v.lastApplied index)).filter prepareLog
        lastApplied := max v.lastApplied index } :=
  ⟨h.confs, h.confs_settled, h.settled, max_le h.applied_le hindex, rfl, h.panicked⟩

/-! ## Comparing a request with the log -/

theorem prevLogMatches_succ {req : AppendEntriesRequest} {p : Nat} (hp : req.prevLogEntry = p + 1) :
    prevLogMatches s req = true ↔ ∃ y, s.logs[p]? = some y ∧ y.term = req.prevLogTerm := by
  have hterm : (if req.prevLogEntry = s.lastIndex then some s.lastTerm
      else (s.getLog req.prevLogEntry).map Log.term) = s.logs[p]?.map Log.term := by
    rw [hp, getLog_succ]
    split_ifs with hlast
    · have hlen : s.logs.length = p + 1 := hlast.symm
      have hx := List.getElem?_eq_getElem (show p < s.logs.length by omega)
      rw [Stable.lastTerm, List.getLast?_eq_getElem?, hlen, Nat.add_sub_cancel, hx]
      rfl
    · rfl
  unfold prevLogMatches
  rw [hterm, hp]
  simp

theorem take_le_of_conflict {l' : List Log} {x y : Log} (hy : l[k]? = some y) (hx : l'[k]? = some x)
    (hne : y.term ≠ x.term) (hp : l.take j <+: l') : j ≤ k := by
  by_contra hlt
  have hy' : (l.take j)[k]? = some y := by rw [List.getElem?_take_of_lt (by omega), hy]
  have := (hp.getElem?_of_some hy').symm.trans hx
  cases this
  exact hne rfl

theorem settled_le_of_keep (h : Inv cl.scheme a) {t : Nat} (hne : a.lead t ≠ [])
    (hkeep : ∀ k ≤ l.length, l.take k <+: a.lead t → k ≤ j) {i : Nat}
    (hs : Settled a l t i) : i ≤ j :=
  hkeep i (hs.length_le h) (hs.take_of_lead h le_rfl hne)

theorem SliceOk.getElem? {dst : ServerID} {req : AppendEntriesRequest} (hs : SliceOk a dst req)
    {i : Nat} {x : Log}
    (hx : req.entries[i]? = some x) : (a.lead req.term)[req.prevLogEntry + i]? = some x := by
  refine hs.entries.getElem?_of_some ?_
  rw [List.getElem?_append_right (by rw [length_upTo hs.prev_le]; omega), length_upTo hs.prev_le,
    Nat.add_sub_cancel_left, hx]

theorem SliceOk.upTo_append {dst : ServerID} {req : AppendEntriesRequest} (hs : SliceOk a dst req) :
    a.upTo req.term (req.prevLogEntry + req.entries.length) =
      a.upTo req.term req.prevLogEntry ++ req.entries ∧
      req.prevLogEntry + req.entries.length ≤ (a.lead req.term).length := by
  have hlen := hs.entries.length_le
  rw [List.length_append, length_upTo hs.prev_le] at hlen
  refine ⟨?_, hlen⟩
  have := List.prefix_iff_eq_take.mp hs.entries
  rw [List.length_append, length_upTo hs.prev_le] at this
  exact this.symm

/-! ## Rewriting the log -/

/-- What a follower does not touch while it brings its log in line, in the history and
on its side. -/
structure Rewrites (a a' : Hist) (r r' : Run) : Prop where
  lead : a'.lead = a.lead
  commits : a'.commits = a.commits
  boss : a'.boss = a.boss
  camp : a'.camp = a.camp
  vote : a'.vote = a.vote
  term : r'.stable.currentTerm = r.stable.currentTerm
  role : r'.vol.role = r.vol.role

theorem Rewrites.refl (a : Hist) (r : Run) : Rewrites a a r r := ⟨rfl, rfl, rfl, rfl, rfl, rfl, rfl⟩

theorem Rewrites.trans {a'' : Hist} {r' r'' : Run} (h : Rewrites a a' r r')
    (h' : Rewrites a' a'' r' r'') :
    Rewrites a a'' r r'' :=
  ⟨h'.lead.trans h.lead, h'.commits.trans h.commits, h'.boss.trans h.boss, h'.camp.trans h.camp,
    h'.vote.trans h.vote, h'.term.trans h.term, h'.role.trans h.role⟩

theorem Rewrites.upTo {r' : Run} (h : Rewrites a a' r r') (t k : Nat) :
    a'.upTo t k = a.upTo t k := by
  rw [History.upTo, h.lead, History.upTo]

/-- The server has brought its log in line a bit more, and still goes together with a history. -/
def Aligns (cl : Cluster) (σ : System) (n : ServerID) (a₀ a : Hist) (r r' : Run) : Prop :=
  ∃ a', Tracks cl σ n a₀ a' r' ∧ LogOk a' r'.stable r'.vol ∧ Rewrites a a' r r'

theorem Tracks.clearSuffix (ht : Tracks cl σ n a₀ a r) (hl : LogOk a r.stable r.vol)
    (hne : a.lead r.stable.currentTerm ≠ [])
    (hk : r.stable.logs.take k = a.upTo r.stable.currentTerm k)
    (hkeep :
      ∀ j ≤ r.stable.logs.length, r.stable.logs.take j <+: a.lead r.stable.currentTerm → j ≤ k) :
    Aligns cl σ n a₀ a r (clearSuffix (some (k + 1)) r) ∧
      (clearSuffix (some (k + 1)) r).stable.logs = a.upTo r.stable.currentTerm k := by
  rw [Raft.clearSuffix]
  have htr : Tracks cl σ n a₀ (a.write n k) (r.write (.deleteFrom (k + 1))) := by
    refine ht.writeLog ?_ (by rwa [ht.cur]) (by rwa [ht.cur])
    rw [ht.cur, ← hk]
    rfl
  have hlog := hl.clear ht.indexed fun i hi => settled_le_of_keep ht.inv hne hkeep hi
  exact ⟨⟨a.write n k, htr.setVol _, hlog.of_lead_eq rfl rfl, rfl, rfl, rfl, rfl, rfl,
    rfl, rfl⟩, hk⟩

theorem Tracks.storeEntries (ht : Tracks cl σ n a₀ a r) (hl : LogOk a r.stable r.vol)
    (hne : a.lead r.stable.currentTerm ≠ []) (hj : j ≤ (a.lead r.stable.currentTerm).length)
    {new : List Log} (hnew : r.stable.logs ++ new = a.upTo r.stable.currentTerm j) :
    Aligns cl σ n a₀ a r (storeEntries new r) ∧
      (storeEntries new r).stable.logs = a.upTo r.stable.currentTerm j := by
  unfold Raft.storeEntries
  split_ifs with hnil
  · rw [hnil, List.append_nil] at hnew
    exact ⟨⟨a, ht, hl, .refl a r⟩, hnew⟩
  · have htr : Tracks cl σ n a₀ (a.write n j) (r.write (.storeLogs new)) := by
      refine ht.writeLog ?_ (by rwa [ht.cur]) fun k hk _ => ?_
      · rw [ht.cur, ← hnew]
        rfl
      · have := congrArg List.length hnew
        rw [List.length_append, length_upTo hj] at this
        omega
    have hroot : Rooted cl.scheme a (r.stable.logs ++ new) := by
      rw [hnew]
      exact (ht.inv.lead_rooted _).take j
    have hlog := hl.store ht.inv hroot fun x hx => ?_
    · exact ⟨⟨a.write n j, htr.setVol _, hlog.of_lead_eq rfl rfl, rfl, rfl, rfl, rfl, rfl,
        rfl, rfl⟩, hnew⟩
    · rw [hnew] at hx
      exact ht.inv.upTo_term_le hx

/-! ## Accepting a request -/

section
variable {req : AppendEntriesRequest} (ht : Tracks cl σ n a₀ a r)
  (hterm : r.stable.currentTerm = req.term)
  (hs : SliceOk a n req)
include ht hs

omit ht in
theorem SliceOk.index (hidx : Indexed (a.lead req.term)) (i : Nat) (x : Log)
    (hx : req.entries[i]? = some x) :
    x.index = req.prevLogEntry + i + 1 := hidx _ x (hs.getElem? hx)

theorem Tracks.match_prev (hprev : prevLogMatches r.stable req = true) :
    r.stable.logs.take req.prevLogEntry = a.upTo req.term req.prevLogEntry ∧
      req.prevLogEntry ≤ r.stable.logs.length := by
  cases hp : req.prevLogEntry with
  | zero => exact ⟨rfl, Nat.zero_le _⟩
  | succ p =>
    obtain ⟨y, hy, hyt⟩ := (prevLogMatches_succ hp).mp hprev
    obtain ⟨x, hx, hxt⟩ := hs.prevTerm p hp
    refine ⟨?_, (List.getElem?_eq_some_iff.mp hy).1⟩
    exact ht.rooted.take_eq_of_term (ht.inv.lead_rooted _) hy hx (hyt.trans hxt.symm)

variable {clearFrom : Option Nat}

theorem Tracks.match_done (hprev : prevLogMatches r.stable req = true) {done new : List Log}
    (hsplit : Split r.stable.logs req.prevLogEntry req.entries done clearFrom new) :
    r.stable.logs.take (req.prevLogEntry + done.length) =
      a.upTo req.term (req.prevLogEntry + done.length) ∧
      req.prevLogEntry + done.length ≤ r.stable.logs.length := by
  rcases List.eq_nil_or_concat' done with rfl | ⟨init, x, rfl⟩
  · exact ht.match_prev hs hprev
  · have hx : (init ++ [x])[init.length]? = some x := by simp
    obtain ⟨y, hy, hyt⟩ := hsplit.same _ x hx
    have hx' : req.entries[init.length]? = some x := by
      rw [hsplit.append, List.getElem?_append_left (by simp), hx]
    rw [List.length_append, List.length_singleton, ← Nat.add_assoc]
    refine ⟨?_, (List.getElem?_eq_some_iff.mp hy).1⟩
    exact ht.rooted.take_eq_of_term (ht.inv.lead_rooted _) hy (hs.getElem? hx') hyt

include hterm

theorem Tracks.synced_of_done (hprev : prevLogMatches r.stable req = true)
    (hsplit : Split r.stable.logs req.prevLogEntry req.entries req.entries clearFrom []) :
    r.stable.logs <+: a.lead req.term := by
  obtain ⟨hdone, hlen⟩ := ht.match_done hs hprev hsplit
  have hcur : a.cur n = req.term := ht.cur.trans hterm
  cases hes : req.entries with
  | nil =>
    -- the entry before is one of the leader's own
    have hbase := hs.nonempty hes
    obtain ⟨p, hp⟩ : ∃ p, req.prevLogEntry = p + 1 := ⟨req.prevLogEntry - 1, by omega⟩
    obtain ⟨y, hy, hyt⟩ := (prevLogMatches_succ hp).mp hprev
    obtain ⟨x, hx, hxt⟩ := hs.prevTerm p hp
    refine ht.inv.prefix_of_own ht.rooted (hterm ▸ ht.log_term) (List.mem_of_getElem? hy) ?_
    exact (hyt.trans hxt.symm).trans ((ht.inv.terms _ p x hx).2 (by omega))
  | cons e es =>
    rcases hs.behind with hsync | ⟨-, hnot⟩ | ⟨hlt, -⟩
    · rcases hsync with hlt | ⟨-, hlog⟩
      · omega
      · rwa [ht.log] at hlog
    · refine absurd ?_ hnot
      rw [ht.log]
      have hle : req.prevLogEntry + 1 ≤ req.prevLogEntry + req.entries.length := by
        rw [hes, List.length_cons]
        omega
      refine (List.take_prefix_take_left hle).trans ?_
      rw [hdone]
      exact List.take_prefix _ _
    · omega

/-- The log after the entries of a request were stored: it has them, and nothing that
the leader lacks. -/
theorem Tracks.stored (hne : a.lead req.term ≠ []) (hl : LogOk a r.stable r.vol)
    (hprev : prevLogMatches r.stable req = true) {done new : List Log}
    (hsplit : Split r.stable.logs req.prevLogEntry req.entries done clearFrom new) :
    Aligns cl σ n a₀ a r (Raft.storeEntries new (Raft.clearSuffix clearFrom r)) ∧
      (Raft.storeEntries new (Raft.clearSuffix clearFrom r)).stable.logs <+: a.lead req.term ∧
      a.upTo req.term (req.prevLogEntry + req.entries.length) <+:
        (Raft.storeEntries new (Raft.clearSuffix clearFrom r)).stable.logs := by
  obtain ⟨hdone, hdlen⟩ := ht.match_done hs hprev hsplit
  obtain ⟨hup, hlen⟩ := hs.upTo_append
  have hle : req.prevLogEntry + done.length ≤ req.prevLogEntry + req.entries.length := by
    rw [hsplit.append, List.length_append]
    omega
  -- what is added to the common part makes it the leader's log up to the last entry of the request
  have hnew : a.upTo req.term (req.prevLogEntry + done.length) ++ new =
      a.upTo req.term (req.prevLogEntry + req.entries.length) := by
    have hcut := congrArg (List.take (req.prevLogEntry + done.length)) hup
    rw [History.upTo, List.take_take, min_eq_left hle, hsplit.append, ← List.append_assoc,
      List.take_left' (by rw [List.length_append, length_upTo hs.prev_le])] at hcut
    rw [hup, History.upTo, hcut, hsplit.append, List.append_assoc]
  rw [← hterm] at hdone hnew hlen hne ⊢
  rcases hsplit.ending with ⟨rfl, hend⟩ | ⟨rfl, x, rest, y, rfl, hy, hconflict⟩
  · rcases hend with rfl | hend
    · -- nothing is new
      obtain rfl : req.entries = done := by rw [hsplit.append, List.append_nil]
      refine ⟨⟨a, ht, hl, .refl a r⟩, hterm ▸ ht.synced_of_done hterm hs hprev hsplit, ?_⟩
      rw [← hdone]
      exact List.take_prefix _ _
    · rw [← hend, List.take_length] at hdone
      rw [← hend, ← hdone] at hnew
      obtain ⟨haligns, hlogs⟩ := ht.storeEntries hl hne hlen hnew
      rw [Raft.clearSuffix]
      exact ⟨haligns, hlogs ▸ List.take_prefix _ _, hlogs ▸ List.prefix_rfl⟩
  · have hx := hs.getElem? (i := done.length) (x := x) (by rw [hsplit.append]; simp)
    rw [← hterm] at hx
    obtain ⟨⟨a', ht', hl', hrw⟩, hlogs⟩ := ht.clearSuffix hl hne hdone fun j _ hp =>
      take_le_of_conflict hy hx hconflict hp
    rw [← hlogs] at hnew
    have hlead := congrFun hrw.lead r.stable.currentTerm
    obtain ⟨⟨a'', ht'', hl'', hrw'⟩, hlogs'⟩ := ht'.storeEntries hl' (by rwa [hrw.term, hlead])
      (j := req.prevLogEntry + req.entries.length) (by rwa [hrw.term, hlead])
        (by rwa [hrw.term, hrw.upTo])
    rw [hrw.term, hrw.upTo] at hlogs'
    exact ⟨⟨a'', ht'', hl'', hrw.trans hrw'⟩, hlogs' ▸ List.take_prefix _ _,
      hlogs' ▸ List.prefix_rfl⟩

/-- A refusal is not for nothing: the log leaves the leader's before the entries of the request, if
at all. -/
theorem Tracks.refused (hprev : ¬prevLogMatches r.stable req = true) :
    Rejected a n req.term req.prevLogEntry r.stable.logs.length := by
  have hcur : a.cur n = req.term := ht.cur.trans hterm
  by_cases hsync : r.stable.logs <+: a.lead req.term
  · exact .inl (.inr ⟨hcur, ht.log ▸ hsync⟩)
  refine .inr ⟨hcur, fun hp => ?_, by rw [ht.log]⟩
  rw [ht.log] at hp
  rcases Nat.lt_or_ge r.stable.logs.length req.prevLogEntry with hlt | hge
  · rw [List.take_of_length_le hlt.le] at hp
    exact hsync hp
  cases hpe : req.prevLogEntry with
  | zero => exact hprev (by simp [prevLogMatches, hpe])
  | succ p =>
    rw [hpe] at hp hge
    obtain ⟨x, hx, hxt⟩ := hs.prevTerm p hpe
    have hy := List.getElem?_eq_getElem (show p < r.stable.logs.length by omega)
    have hxy := Option.some.inj ((hp.getElem?_of_some (getElem?_take_succ.trans hy)).symm.trans hx)
    exact hprev ((prevLogMatches_succ hpe).mpr ⟨_, hy, (congrArg Log.term hxy).trans hxt⟩)

end

theorem LogOk.followCommit (hl : LogOk a r.stable r.vol) (hidx : Indexed r.stable.logs)
    (hp : r.stable.logs <+: l) {commitIndex : Nat}
    (hs : Settled a l r.stable.currentTerm commitIndex) (hinv : Inv cl.scheme a) :
    ∃ v, followCommit commitIndex r = r.setVol (fun _ => v) ∧ LogOk a r.stable v ∧
      v.role = r.vol.role := by
  unfold Raft.followCommit
  split_ifs with hup
  · have hle : min commitIndex r.stable.logs.length ≤ r.stable.logs.length := min_le_right _ _
    have hsettled :
        Settled a r.stable.logs r.stable.currentTerm (min commitIndex r.stable.logs.length) := by
      refine (hs.of_le (min_le_left _ _)).of_take_eq ?_
      obtain ⟨rest, rfl⟩ := hp
      rw [List.take_append_of_le_length hle]
    dsimp only [Stable.lastIndex]
    rw [processLogs_eq (r := r.setVol _) hidx (List.forall_mem_nil _) hle]
    swap
    · exact hl.fsm
    refine ⟨_, rfl, LogOk.applied ?_ le_rfl, rfl⟩
    refine hl.committed hsettled (le_min hup.2.le (hl.settled.length_le hinv)) ?_
    split_ifs with hlatest
    · exact .inr ⟨rfl, hlatest⟩
    · exact .inl rfl
  · exact ⟨r.vol, rfl, hl, rfl⟩

/-! ## Requests -/

/-- The roles in which a server takes entries from the leader of its own term. -/
def Led (v : Volatile) : Prop :=
  v.role = .follower ∨ ∃ c, v.role = .candidate c ∧ ∀ c', c = some c' → c'.stage = .vote

theorem RoleOk.of_led {s' : Stable} {v' : Volatile} (h : RoleOk a n s v) (hled : Led v)
    (hrole : v'.role = v.role) (hterm : s'.currentTerm = s.currentTerm)
    (hlead : a'.lead s.currentTerm ≠ [])
    (hboss : a'.boss = a.boss) (hcamp : a'.camp = a.camp) (hvote : a'.vote = a.vote) :
    RoleOk a' n s' v' := by
  unfold RoleOk at h ⊢
  rw [hrole]
  rcases hled with hv | ⟨c, hv, hstage⟩
  · rw [hv]
    trivial
  rw [hv] at h ⊢
  cases c with
  | none => trivial
  | some c =>
    simp only [hstage c rfl] at h ⊢
    obtain ⟨hct, hb, ⟨l, G, hc, -, hrest⟩, hown⟩ := (h : CampaignOk a n s c)
    refine ⟨hct.trans hterm.symm, hboss ▸ hb, ⟨l, G, hcamp ▸ hc, fun hnil => ?_, ?_⟩, hvote ▸ hown⟩
    · exact absurd (hct ▸ hnil) hlead
    · rw [hvote]
      exact hrest

theorem acceptEntries_good {req : AppendEntriesRequest} (ht : Tracks cl σ n a₀ a r)
    (hv : VolOk a n r.stable r.vol)
    (hterm : r.stable.currentTerm = req.term) (hled : Led r.vol)
    (hsent : Msg.appendEntries n req ∈ σ.sent) :
    Good cl σ n a₀ (acceptEntries n req r.stable.lastIndex r) := by
  obtain ⟨hne, hreq⟩ := ht.core.msgs _ (List.mem_append_left _ hsent)
  rcases hreq with ⟨hzero, hnil, hcommit⟩ | hs
  · -- a heartbeat
    have hacc : acceptEntries n req r.stable.lastIndex r =
        r.send (.appendEntriesReply n req ⟨req.term, r.stable.lastIndex, true, false⟩) := by
      simp [acceptEntries, prevLogMatches, hzero, hnil, hcommit, newEntries, clearSuffix,
        storeEntries, followCommit]
    rw [hacc]
    refine ⟨a, ht.send ?_, hv⟩
    refine ⟨hne, fun _ => ⟨.inl ⟨hzero, hnil, hcommit⟩, fun last hl => ?_⟩, fun hf => by cases hf⟩
    rw [hnil] at hl
    cases hl
  unfold acceptEntries
  split_ifs with hprev
  swap
  · refine ⟨a, ht.send ?_, hv⟩
    exact ⟨hne, (fun hf => by cases hf), fun _ => .inr (ht.refused hterm hs hprev)⟩
  obtain ⟨hmatch, hlen⟩ := ht.match_prev hs hprev
  obtain ⟨clearFrom, new, done, hnew, hsplit⟩ := newEntries_spec hlen (hs.index (ht.indexed_lead _))
  rw [hnew]
  dsimp only
  obtain ⟨⟨a', ht', hl', hrw⟩, hlead, hall⟩ := ht.stored hterm hs hne hv.log hprev hsplit
  have hterm' := hrw.term.trans hterm
  have hcur : a'.cur n = req.term := ht'.cur.trans hterm'
  have hslice := hs.upTo_append.2
  rw [← hrw.upTo] at hall
  rw [← hrw.lead] at hlead hslice
  -- the follower acknowledges the last entry of the request
  have hack : Tracks cl σ n a₀ (a'.acknowledge n (req.prevLogEntry + req.entries.length)) _ :=
    ht'.ghost (.acknowledge (hcur ▸ hslice) (by rw [hcur, ht'.log]; exact hall)) rfl rfl rfl
  have hcommit : Settled a' (a'.lead req.term) req.term req.leaderCommitIndex := by
    rcases hs.commit with hz | ⟨t, k, m, hc, hrest⟩
    · exact .inl hz
    · exact .inr ⟨t, k, m, by rwa [hrw.commits], by rwa [hrw.upTo, hrw.lead]⟩
  obtain ⟨v, hf, hlog, hrole⟩ := hl'.followCommit ht'.indexed hlead (hcommit.mono hterm'.ge) ht'.inv
  rw [hf]
  refine ⟨_, (hack.setVol _).send ?_, hlog.of_lead_eq rfl rfl, ?_⟩
  · refine ⟨fun hnil => hne (hrw.lead ▸ hnil),
      fun _ => ⟨.inr (.inr ⟨hcur, ht'.log ▸ hlead⟩), fun last hlast => ?_⟩, fun hf => by cases hf⟩
    have hpos : 0 < req.entries.length :=
      List.length_pos_of_ne_nil (List.ne_nil_of_mem (List.mem_of_getLast? hlast))
    rw [List.getLast?_eq_getElem?] at hlast
    have hindex := hs.index (ht.indexed_lead _) _ last hlast
    simp only [History.acknowledge, hcur, Function.update_self]
    exact le_max_of_le_right (by omega)
  · refine hv.role.of_led hled (hrole.trans hrw.role) hrw.term ?_ hrw.boss hrw.camp hrw.vote
    rw [hterm]
    exact fun hnil => hne (hrw.lead ▸ hnil)

/-- A server that does not step down for a leader of its own term follows already, or stands for
election at the wish of the last leader. -/
theorem led_of_not_stepDown (hrole : RoleOk a n r.stable v)
    (hflag : v.candidateFromLeadershipTransfer = true → ∃ c, v.role = .candidate c)
    (hstay : ¬(¬isFollower v = true ∧ ¬v.candidateFromLeadershipTransfer = true)) : Led v := by
  by_cases hf : isFollower v = true
  · unfold isFollower at hf
    split at hf
    · next heq => exact .inl heq
    · cases hf
  · have hset : v.candidateFromLeadershipTransfer = true := by
      by_contra hno
      exact hstay ⟨hf, hno⟩
    obtain ⟨c, hc⟩ := hflag hset
    refine .inr ⟨c, hc, fun c' hc' => ?_⟩
    subst hc'
    simp only [RoleOk, hc] at hrole
    split at hrole
    · rw [hrole.2.2] at hset
      cases hset
    · assumption

theorem appendEntries_good {req : AppendEntriesRequest} (h : Good cl σ n a₀ r)
    (hsent : Msg.appendEntries n req ∈ σ.sent)
    (hflag : r.vol.candidateFromLeadershipTransfer = true → ∃ c, r.vol.role = .candidate c) :
    Good cl σ n a₀ (appendEntries n req r) := by
  unfold appendEntries
  dsimp only
  split_ifs with hold hstep
  · obtain ⟨a, ht, hv⟩ := h
    obtain ⟨hne, -⟩ := ht.core.msgs _ (List.mem_append_left _ hsent)
    exact ⟨a, ht.send ⟨hne, (fun hf => by cases hf), fun _ => .inl hold⟩, hv⟩
  · obtain ⟨a, ht, hv⟩ := (h.follow (not_lt.mp hold)).setLeader req.addr
    exact acceptEntries_good ht hv rfl (.inl rfl) hsent
  · obtain ⟨a, ht, hv⟩ := h.setLeader req.addr
    rw [not_or] at hstep
    refine acceptEntries_good ht hv (show r.stable.currentTerm = req.term by omega) ?_ hsent
    exact led_of_not_stepDown hv.role hflag hstep.2

theorem Core.upTo_first {disk : ServerID → Stable} {sent : List Msg} (h : Core cl a disk sent) :
    a.upTo 1 1 = [cl.genesis] := by
  obtain ⟨x, l, hl⟩ := List.exists_cons_of_ne_nil h.first
  have hx : x = cl.genesis := h.inv.head 1 x (by rw [hl]; rfl)
  rw [History.upTo, hl, hx]
  rfl

/-- The first term has a leader's log before there is a server in it: every server that is
bootstrapped writes the same entry. -/
theorem liveBootstrap_good (h : Good cl σ n a₀ r) : Good cl σ n a₀ (liveBootstrap cl n r) := by
  unfold liveBootstrap
  split
  swap
  · exact h
  next hrole =>
  split_ifs with hvote hnew
  · exact h
  · obtain ⟨a, ht, hv⟩ := h
    have hterm : r.stable.currentTerm = 0 := by omega
    have hlogs : r.stable.logs = [] :=
      List.length_eq_zero_iff.mp (by rw [Stable.lastIndex] at hnew; omega)
    have htick : Tracks cl σ n a₀ (a.tick n 1) (r.setCurrentTerm 1) := ht.tick (by omega)
    have hcur : (a.tick n 1).cur n = 1 := htick.cur
    have hfirst : (a.tick n 1).upTo 1 1 = [cl.genesis] := ht.core.upTo_first
    have hwrite :
        Tracks cl σ n a₀ ((a.tick n 1).write n 1)
          ((r.setCurrentTerm 1).write (.storeLogs [cl.genesis])) := by
      refine htick.writeLog ?_ (by rw [hcur]; exact ht.core.first) fun k hk _ => ?_
      · rw [hcur, hfirst, Write.apply, show (r.setCurrentTerm 1).stable.logs = [] from hlogs,
          List.nil_append]
      · rw [show (r.setCurrentTerm 1).stable.logs = [] from hlogs] at hk
        exact Nat.le_succ_of_le hk
    have hl : LogOk (a.tick n 1) { r.stable with currentTerm := 1 } r.vol := by
      have hle : r.stable.currentTerm ≤ 1 := by omega
      have hold : LogOk a { r.stable with currentTerm := 1 } r.vol := hv.log.of_stable rfl hle
      exact hold.of_lead_eq rfl rfl
    have hroot : Rooted cl.scheme (a.tick n 1) (r.stable.logs ++ [cl.genesis]) := by
      rw [hlogs, List.nil_append, ← hfirst]
      exact (htick.inv.lead_rooted 1).take 1
    have hstore := hl.store htick.inv hroot fun x hx => ?_
    · refine ⟨_, hwrite.sameTerm.setVol _, hstore.of_lead_eq rfl rfl, ?_⟩
      simp only [RoleOk, Run.setVol, Run.setCurrentTerm, Run.write, hrole]
    · rw [hlogs, List.nil_append, List.mem_singleton] at hx
      rw [hx]
      exact le_rfl
  · exact h

end

end KvRaft.Raft
