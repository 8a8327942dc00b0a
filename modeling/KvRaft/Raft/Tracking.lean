import KvRaft.Raft.Simulation

/-! # Following a server through an event

`Tracks` says of a server in the middle of an event that its disk and the network go together with a
history, and that they did so after every effect so far; only between the two writes of a vote they
need not (`Torn`). Each write and each message extends it (`Tracks.tick`, `Tracks.persistVote`,
`Tracks.writeLog`, `Tracks.send`), and so do the steps of the history that leave no trace on the
disk (`Tracks.ghost`). -/

namespace KvRaft.Raft

open LeaderLog

/-- A crash between the two writes of `persistVote`. -/
def Torn (out rest : List Effect) : Prop :=
  ∃ t addr, out.getLast? = some (.write (.lastVoteTerm t)) ∧
    rest.head? = some (.write (.lastVoteCand addr))

/-- The disks while the server `n` has `s` on its own. -/
def System.disks (σ : System) (n : ServerID) (s : Stable) : ServerID → Stable :=
  Function.update (fun m => (σ.node m).stable) n s

def System.diskAfter (σ : System) (n : ServerID) (out : List Effect) : Stable :=
  (writes out).foldl Write.apply (σ.node n).stable

structure Tracks (cl : Cluster) (σ : System) (n : ServerID) (a₀ a : Hist) (r : Run) : Prop where
  run : cl.Steps n a₀ a
  core : Core cl a (σ.disks n r.stable) (σ.sent ++ messages r.out)
  cut : ∀ out rest, r.out = out ++ rest → ¬Torn out rest →
    ∃ a', cl.Steps n a₀ a' ∧ Core cl a' (σ.disks n (σ.diskAfter n out)) (σ.sent ++ messages out)
  disk : r.stable = σ.diskAfter n r.out

section
variable {cl : Cluster} {σ : System} {n : ServerID} {a₀ a a' : Hist} {r : Run}

theorem diskAfter_concat_write (out : List Effect) (w : Write) :
    σ.diskAfter n (out ++ [.write w]) = w.apply (σ.diskAfter n out) := by
  simp [System.diskAfter, writes]

theorem diskAfter_concat_send (out : List Effect) (m : Msg) :
    σ.diskAfter n (out ++ [.send m]) = σ.diskAfter n out := by
  simp [System.diskAfter, writes]

theorem messages_append (out out' : List Effect) :
    messages (out ++ out') = messages out ++ messages out' :=
  List.filterMap_append

theorem Tracks.start (h : Core cl a (fun m => (σ.node m).stable) σ.sent) (node : Node)
    (hnode : node.stable = (σ.node n).stable) : Tracks cl σ n a a ⟨node, []⟩ := by
  have hcore : Core cl a (σ.disks n (σ.node n).stable) (σ.sent ++ messages []) := by
    rw [System.disks, Function.update_eq_self, show messages [] = [] from rfl, List.append_nil]
    exact h
  refine ⟨.refl, hnode ▸ hcore, fun out rest hout _ => ?_, hnode⟩
  obtain ⟨rfl, -⟩ := List.nil_eq_append_iff.mp hout
  exact ⟨a, .refl, hcore⟩

theorem Torn.of_append {out rest es : List Effect} (h : Torn out rest) : Torn out (rest ++ es) := by
  obtain ⟨t, addr, hlast, hhead⟩ := h
  exact ⟨t, addr, hlast, by rw [List.head?_append, hhead]; rfl⟩

theorem Tracks.extend (ht : Tracks cl σ n a₀ a r) {r' : Run} (es : List Effect)
    (hout : r'.out = r.out ++ es)
    (hdisk : r'.stable = σ.diskAfter n r'.out) (hsteps : cl.Steps n a a')
    (hcore : Core cl a' (σ.disks n r'.stable) (σ.sent ++ messages r'.out))
    (hcut : ∀ es₁ es₂, es = es₁ ++ es₂ → es₁ ≠ [] → es₂ ≠ [] → Torn (r.out ++ es₁) es₂) :
    Tracks cl σ n a₀ a' r' := by
  have hrun := ht.run.trans hsteps
  refine ⟨hrun, hcore, fun out rest heq htorn => ?_, hdisk⟩
  rw [hout] at heq
  rcases List.append_eq_append_iff.mp heq with ⟨es₁, rfl, rfl⟩ | ⟨rest', hr, rfl⟩
  · by_cases h₁ : es₁ = []
    · subst h₁
      rw [List.append_nil] at htorn ⊢
      refine ht.cut r.out [] (List.append_nil _).symm ?_
      rintro ⟨t, addr, -, hhead⟩
      cases hhead
    · by_cases h₂ : rest = []
      · subst h₂
        rw [List.append_nil] at hout
        rw [hdisk, hout] at hcore
        exact ⟨a', hrun, hcore⟩
      · exact absurd (hcut es₁ rest rfl h₁ h₂) htorn
  · exact ht.cut out rest' hr fun hb => htorn hb.of_append

theorem Tracks.extend_one (ht : Tracks cl σ n a₀ a r) {r' : Run} {e : Effect}
    (hout : r'.out = r.out ++ [e])
    (hdisk : r'.stable = σ.diskAfter n r'.out) (hsteps : cl.Steps n a a')
    (hcore : Core cl a' (σ.disks n r'.stable) (σ.sent ++ messages r'.out)) :
    Tracks cl σ n a₀ a' r' := by
  refine ht.extend [e] hout hdisk hsteps hcore fun es₁ es₂ heq h₁ h₂ => ?_
  have hlen := congrArg List.length heq
  rw [List.length_singleton, List.length_append] at hlen
  have := List.length_pos_of_ne_nil h₁
  have := List.length_pos_of_ne_nil h₂
  omega

theorem Tracks.inv (ht : Tracks cl σ n a₀ a r) : Inv cl.scheme a := ht.core.inv

theorem Tracks.cur (ht : Tracks cl σ n a₀ a r) : a.cur n = r.stable.currentTerm := by
  have := ht.core.cur n
  rwa [System.disks, Function.update_self] at this

theorem Tracks.log (ht : Tracks cl σ n a₀ a r) : a.log n = r.stable.logs := by
  have := ht.core.log n
  rwa [System.disks, Function.update_self] at this

theorem Tracks.ballot (ht : Tracks cl σ n a₀ a r) : Ballot cl a n r.stable := by
  have := ht.core.ballot n
  rwa [System.disks, Function.update_self] at this

theorem Tracks.rooted (ht : Tracks cl σ n a₀ a r) : Rooted cl.scheme a r.stable.logs :=
  ht.log ▸ ht.inv.log_rooted n

theorem Tracks.log_term (ht : Tracks cl σ n a₀ a r) :
    ∀ x ∈ r.stable.logs, x.term ≤ r.stable.currentTerm := by
  rw [← ht.log, ← ht.cur]
  exact ht.inv.log_term n

theorem indexed_of_rooted (h : Inv cl.scheme a) {l : List Log} (hl : Rooted cl.scheme a l) :
    Indexed l :=
  fun _ _ hx => (h.rooted_fits hl hx).1

theorem valid_of_rooted (h : Inv cl.scheme a) {l : List Log} (hl : Rooted cl.scheme a l) {x : Log}
    (hx : x ∈ l) {c : Configuration} (hc : x.config = some c) : c.Valid := by
  obtain ⟨i, hi⟩ := List.mem_iff_getElem?.mp hx
  exact (h.rooted_fits hl hi).2 c hc

theorem Tracks.indexed (ht : Tracks cl σ n a₀ a r) : Indexed r.stable.logs :=
  indexed_of_rooted ht.inv ht.rooted

theorem Tracks.indexed_lead (ht : Tracks cl σ n a₀ a r) (t : Nat) : Indexed (a.lead t) :=
  indexed_of_rooted ht.inv (ht.inv.lead_rooted t)

theorem Tracks.setVol (ht : Tracks cl σ n a₀ a r) (f : Volatile → Volatile) :
    Tracks cl σ n a₀ a (r.setVol f) :=
  ⟨ht.run, ht.core, ht.cut, ht.disk⟩

/-! ## Messages -/

theorem Tracks.send (ht : Tracks cl σ n a₀ a r) {m : Msg} (hm : MsgOk cl a m) :
    Tracks cl σ n a₀ a (r.send m) := by
  refine ht.extend_one (e := .send m) rfl ?_ .refl ?_
  · simp only [Run.send]
    rw [diskAfter_concat_send]
    exact ht.disk
  · refine { ht.core with msgs := fun m' hm' => ?_ }
    simp only [Run.send] at hm'
    rw [messages_append, ← List.append_assoc, List.mem_append] at hm'
    rcases hm' with hold | hnew
    · exact ht.core.msgs m' hold
    · obtain rfl : m' = m := by simpa [messages] using hnew
      exact hm

/-! ## Steps of the history -/

theorem Ballot.of_vote_eq {m : ServerID} {s : Stable} (h : Ballot cl a m s)
    (hvote : a'.vote m = a.vote m) :
    Ballot cl a' m s :=
  ⟨fun t c hc => h.past t c (hvote ▸ hc), fun addr haddr => hvote ▸ h.cast addr haddr, h.le⟩

theorem Core.step {s s' : Stable} {sent : List Msg} (h : Core cl a (σ.disks n s) sent)
    (hs : LeaderLog.Step cl.scheme n a a') (hcur : a'.cur n = s'.currentTerm)
    (hlog : a'.log n = s'.logs) (hballot : Ballot cl a' n s') : Core cl a' (σ.disks n s') sent := by
  have hrun : cl.Steps n a a' := .single hs
  have hother : ∀ m, m ≠ n → σ.disks n s' m = σ.disks n s m ∧ a'.cur m = a.cur m ∧
      a'.log m = a.log m ∧ a'.vote m = a.vote m := fun m hm =>
    ⟨by simp [System.disks, hm], disk_eq_of_other hrun (Ne.symm hm)⟩
  have hself : σ.disks n s' n = s' := Function.update_self ..
  refine ⟨h.inv.step hs, hs.lead_ne_nil h.inv h.first, fun m => ?_, fun m => ?_, fun m => ?_,
    fun m hm => (h.msgs m hm).run h.inv hrun⟩ <;> rcases eq_or_ne m n with rfl | hm
  · rw [hself, hcur]
  · rw [(hother m hm).1, (hother m hm).2.1, h.cur]
  · rw [hself, hlog]
  · rw [(hother m hm).1, (hother m hm).2.2.1, h.log]
  · rwa [hself]
  · rw [(hother m hm).1]
    exact (h.ballot m).of_vote_eq (hother m hm).2.2.2

theorem Tracks.ghost (ht : Tracks cl σ n a₀ a r) (hs : LeaderLog.Step cl.scheme n a a')
    (hcur : a'.cur n = a.cur n)
    (hlog : a'.log n = a.log n) (hvote : a'.vote n = a.vote n) : Tracks cl σ n a₀ a' r := by
  refine ⟨ht.run.tail hs, ?_, ht.cut, ht.disk⟩
  exact ht.core.step hs (hcur.trans ht.cur) (hlog.trans ht.log) (ht.ballot.of_vote_eq hvote)

/-! ## Writes -/

theorem Tracks.write_step (ht : Tracks cl σ n a₀ a r) {w : Write}
    (hs : LeaderLog.Step cl.scheme n a a')
    (hcur : a'.cur n = (w.apply r.stable).currentTerm) (hlog : a'.log n = (w.apply r.stable).logs)
    (hballot : Ballot cl a' n (w.apply r.stable)) : Tracks cl σ n a₀ a' (r.write w) := by
  have hcore := ht.core.step hs hcur hlog hballot
  refine ht.extend_one (e := .write w) rfl ?_ (.single hs) ?_
  · simp only [Run.write]
    rw [diskAfter_concat_write, ht.disk]
  · simpa [Run.write, messages_append, show messages [.write w] = [] from rfl] using hcore

theorem Tracks.tick (ht : Tracks cl σ n a₀ a r) {t : Nat} (hlt : r.stable.currentTerm < t) :
    Tracks cl σ n a₀ (a.tick n t) (r.setCurrentTerm t) := by
  refine ht.write_step (.tick (ht.cur ▸ hlt)) ?_ ht.log ⟨ht.ballot.past, ht.ballot.cast,
    ht.ballot.le.trans hlt.le⟩
  simp [History.tick, Write.apply]

theorem Tracks.sameTerm (ht : Tracks cl σ n a₀ a r) :
    Tracks cl σ n a₀ a (r.setCurrentTerm r.stable.currentTerm) := by
  refine ht.extend_one (e := .write _) rfl ?_ .refl ?_
  · simp only [Run.setCurrentTerm, Run.write]
    rw [diskAfter_concat_write, ht.disk]
  · have := ht.core
    simpa [Run.setCurrentTerm, Run.write, Write.apply, messages_append,
      show messages [.write (.currentTerm r.stable.currentTerm)] = [] from rfl] using this

theorem Tracks.persistVote (ht : Tracks cl σ n a₀ a r) {c : ServerID} {l : List Log}
    (hnew : a.vote n (a.cur n) = none) (hcamp : a.camp c (a.cur n) = some l)
    (hlog : cl.scheme.UpToDate l (a.log n)) :
    Tracks cl σ n a₀ (a.grant n c) (r.persistVote r.stable.currentTerm (cl.localAddr c)) := by
  have hs : LeaderLog.Step cl.scheme n a (a.grant n c) := .grant hnew hcamp hlog
  refine ht.extend [.write (.lastVoteTerm r.stable.currentTerm),
    .write (.lastVoteCand (cl.localAddr c))] ?_ ?_
    (.single hs) ?_ ?_
  · simp [Run.persistVote, Run.write]
  · simp only [Run.persistVote, Run.write]
    rw [diskAfter_concat_write, diskAfter_concat_write, ht.disk]
  · have hcore :
        Core cl (a.grant n c)
          (σ.disks n (r.persistVote r.stable.currentTerm (cl.localAddr c)).stable)
        (σ.sent ++ messages r.out) := by
      refine ht.core.step hs ht.cur ht.log ⟨fun t c' hv => ?_, fun addr haddr => ?_, le_rfl⟩
      · by_cases hcur : t = a.cur n
        · subst hcur
          obtain rfl : c = c' := by simpa [History.grant] using hv
          exact .inr ⟨ht.cur, rfl⟩
        · have hold : a.vote n t = some c' := by simpa [History.grant, hcur] using hv
          have := (ht.inv.vote n t c' hold).1
          exact .inl (ht.cur ▸ lt_of_le_of_ne this hcur)
      · obtain rfl : cl.localAddr c = addr := by
          simpa [Run.persistVote, Run.write, Write.apply] using haddr
        refine ⟨c, rfl, ?_⟩
        simp [Run.persistVote, Run.write, Write.apply, History.grant, ← ht.cur]
    simpa [Run.persistVote, Run.write, messages, List.filterMap_append] using hcore
  · intro es₁ es₂ heq h₁ h₂
    obtain ⟨e, es₁, rfl⟩ := List.exists_cons_of_ne_nil h₁
    rw [List.cons_append, List.cons.injEq] at heq
    obtain ⟨rfl, heq⟩ := heq
    cases es₁ with
    | nil =>
      rw [List.nil_append] at heq
      exact ⟨_, cl.localAddr c, List.getLast?_concat, by rw [← heq]; rfl⟩
    | cons e es₁ =>
      have hlen := congrArg List.length heq
      have := List.length_pos_of_ne_nil h₂
      rw [List.cons_append, List.length_singleton, List.length_cons, List.length_append] at hlen
      omega

theorem Tracks.writeLog (ht : Tracks cl σ n a₀ a r) {w : Write} {j : Nat}
    (hw : w.apply r.stable = { r.stable with logs := a.upTo (a.cur n) j })
    (hlead : a.lead (a.cur n) ≠ [])
    (hkeep : ∀ k ≤ r.stable.logs.length, r.stable.logs.take k <+: a.lead (a.cur n) → k ≤ j) :
    Tracks cl σ n a₀ (a.write n j) (r.write w) := by
  refine ht.write_step (.write hlead (ht.log ▸ hkeep)) ?_ ?_ ?_
  · rw [hw]
    exact ht.cur
  · rw [hw]
    simp [History.write]
  · rw [hw]
    exact ⟨ht.ballot.past, ht.ballot.cast, ht.ballot.le⟩

end

end KvRaft.Raft
