import KvRaft.Web.Votes

/-! # What an AppendEntries request does to the log

An accepted request walks over its entries: one that the log has already, with its term, is passed
over, one that conflicts cuts the log off, and one that is missing is added. The log is cut by
signed indexes: a cut from an index below `2 ^ 63` leaves the rows from there on, and one from a
higher index takes those below.

The reply reports the last index of the log table. An empty table is reported as index zero, also
behind a snapshot. -/

namespace KvRaft.Web

open Bytes EStateM

/-! ## The reply -/

theorem reply_handleAppendEntries {self : Learner} {req : AppendEntriesRequest} {s : SqliteStore}
    {resp : AppendEntriesResponse} (h : (handleAppendEntries self req).outcome s = .ok resp) :
    resp.lastLog = ((handleAppendEntries self req).final s).logLastIndex ∧
      (resp.success = true ↔ Accepts s req) := by
  have hreply : ∀ {term : UInt64} {success : Bool} {s : SqliteStore} {resp : AppendEntriesResponse},
      (appendEntriesResponse self term success).outcome s = .ok resp →
        resp.lastLog = s.logLastIndex ∧ resp.success = success := by
    intro term success s resp h
    cases h
    exact ⟨rfl, rfl⟩
  rw [final_handleAppendEntries]
  unfold handleAppendEntries at h
  rw [outcome_get_bind] at h
  dsimp only at h
  by_cases hpast : req.term < s.currentTerm
  · rw [if_pos hpast] at h ⊢
    obtain ⟨hlast, hsuccess⟩ := hreply h
    exact ⟨hlast, iff_of_false (by rw [hsuccess]; decide) fun haccepts => haccepts.1 hpast⟩
  rw [if_neg hpast] at h ⊢
  have hadopt :
      (modify fun s => adoptTerm s req.term : Db PUnit) s = .ok ⟨⟩ (adoptTerm s req.term) := rfl
  rw [outcome, run_bind_of_ok hadopt, ← outcome, outcome_get_bind] at h
  rcases hprev : checkPrev (adoptTerm s req.term) req.prevLogEntry req.prevLogTerm with
    _ | _ | _ <;>
    rw [hprev] at h <;> dsimp only at h ⊢
  · -- accepted
    change (applyCommitted >>= fun _ => appendEntriesResponse self req.term true).outcome
      (stored s req) = _ at h
    obtain ⟨-, -, h, -⟩ := bind_of_ok h
    obtain ⟨hlast, hsuccess⟩ := hreply h
    exact ⟨hlast, iff_of_true hsuccess ⟨hpast, hprev⟩⟩
  · obtain ⟨hlast, hsuccess⟩ := hreply h
    refine ⟨hlast, iff_of_false (by rw [hsuccess]; decide) fun haccepts => ?_⟩
    exact absurd (hprev.symm.trans haccepts.2) (by decide)
  · obtain ⟨hlast, hsuccess⟩ := hreply h
    refine ⟨hlast, iff_of_false (by rw [hsuccess]; decide) fun haccepts => ?_⟩
    exact absurd (hprev.symm.trans haccepts.2) (by decide)

/-! ## Signed indexes -/

/-- The table takes the index for a negative one. -/
def High (i : UInt64) : Prop := 2 ^ 63 ≤ i.toNat

instance decidableHigh (i : UInt64) : Decidable (High i) := inferInstanceAs (Decidable (_ ≤ _))

theorem High.of_lt {i j : UInt64} (h : High i) (hij : i < j) : High j :=
  h.trans (UInt64.lt_iff_toNat_lt.mp hij).le

theorem lt_of_high {i j : UInt64} (hi : ¬High i) (hj : High j) : i < j :=
  not_le.mp fun hle => hi (hj.trans (UInt64.le_iff_toNat_le.mp hle))

theorem signed_lt_iff {a b : UInt64} :
    a.signed < b.signed ↔ High a ∧ ¬High b ∨ (High a ↔ High b) ∧ a < b := by
  have ha : a.signed = if 2 * a.toNat < 2 ^ 64 then (a.toNat : Int) else a.toNat - (2 ^ 64 : Nat) :=
    BitVec.toInt_eq_toNat_cond a.toBitVec
  have hb : b.signed = if 2 * b.toNat < 2 ^ 64 then (b.toNat : Int) else b.toNat - (2 ^ 64 : Nat) :=
    BitVec.toInt_eq_toNat_cond b.toBitVec
  have := a.toNat_lt
  have := b.toNat_lt
  rw [ha, hb, UInt64.lt_iff_toNat_lt]
  unfold High
  split_ifs <;> omega

theorem logGet_logAppend (s : SqliteStore) (index term : UInt64) (data : Bytes) (i : UInt64) :
    (s.logAppend index term data).logGet i =
      if i = index then some (term, data) else s.logGet i := by
  unfold SqliteStore.logGet SqliteStore.logAppend
  rw [OrdMap.get_insert]
  simp only [UInt64.signed_inj]

theorem logGet_logTruncateFrom (s : SqliteStore) (start i : UInt64) :
    (s.logTruncateFrom start).logGet i = if i.signed < start.signed then s.logGet i else none := by
  unfold SqliteStore.logGet SqliteStore.logTruncateFrom
  rw [OrdMap.get_filter]
  simp only [decide_eq_true_eq]

/-! ## One entry -/

def Log.row (e : Log) : UInt64 × Bytes := (e.term, e.data.getD [])

/-- An entry of the request has another term than the one under its index. -/
def Conflicts (s : SqliteStore) (e : Log) : Prop := ∃ t, s.logGetTerm e.index = some t ∧ t ≠ e.term

theorem conflicts_iff {s : SqliteStore} {e : Log} :
    Conflicts s e ↔ ∃ v, s.logGet e.index = some v ∧ v.1 ≠ e.term := by
  simp [Conflicts, SqliteStore.logGetTerm]

/-- All that one entry can do: nothing, where the snapshot covers it; fill its place; or
cut the log. -/
theorem storeEntry_cases (included last : UInt64) (s : SqliteStore) (e : Log) :
    e.index ≤ included ∧ (storeEntry included (s, last) e).1 = s ∨
    included < e.index ∧ ¬Conflicts s e ∧ (∀ i, (storeEntry included (s, last) e).1.logGet i =
      if i = e.index then (s.logGet i).or (some e.row) else s.logGet i) ∨
    included < e.index ∧ Conflicts s e ∧ ∀ i, (storeEntry included (s, last) e).1.logGet i =
      if i = e.index then some e.row else if i.signed < e.index.signed then s.logGet i
      else none := by
  unfold storeEntry
  dsimp only
  by_cases hcovered : e.index ≤ included
  · rw [if_pos hcovered]
    exact .inl ⟨hcovered, rfl⟩
  rw [if_neg hcovered]
  refine .inr ?_
  rw [conflicts_iff]
  rcases hrow : s.logGet e.index with _ | v
  · have hterm : s.logGetTerm e.index = none := by rw [SqliteStore.logGetTerm, hrow]; rfl
    refine .inl ⟨not_le.mp hcovered, ?_, fun i => ?_⟩
    · rintro ⟨v, hv, -⟩
      cases hv
    · simp only [hterm, logGet_logAppend]
      split_ifs with hi
      · rw [hi, hrow]
        rfl
      · rfl
  · have hterm : s.logGetTerm e.index = some v.1 := by rw [SqliteStore.logGetTerm, hrow]; rfl
    by_cases heq : v.1 = e.term
    · refine .inl ⟨not_le.mp hcovered, ?_, fun i => ?_⟩
      · rintro ⟨v', hv', hne⟩
        cases hv'
        exact hne heq
      · simp only [hterm, if_pos heq]
        split_ifs with hi
        · rw [hi, hrow]
          rfl
        · rfl
    · refine .inr ⟨not_le.mp hcovered, ⟨v, rfl, heq⟩, fun i => ?_⟩
      simp only [hterm, if_neg heq, logGet_logAppend, logGet_logTruncateFrom]
      rfl

theorem logGet_storeEntry_of_ne {included last i : UInt64} {s : SqliteStore} {e : Log}
    (hne : i ≠ e.index) (h : s.logGet i = none) :
    (storeEntry included (s, last) e).1.logGet i = none := by
  obtain ⟨-, hsame⟩ | ⟨-, -, hget⟩ | ⟨-, -, hget⟩ := storeEntry_cases included last s e
  · rw [hsame, h]
  · rw [hget, if_neg hne, h]
  · rw [hget, if_neg hne, h, ite_self]

/-! ## A stretch of entries -/

def requested (included : UInt64) : List Log → UInt64 → Option (UInt64 × Bytes)
  | [], _ => none
  | e :: entries, i =>
    if included < e.index ∧ e.index = i then some e.row else requested included entries i

abbrev InOrder (entries : List Log) : Prop := entries.Pairwise fun a b => a.index < b.index

section Stretch

variable {included : UInt64} {entries : List Log} {i : UInt64} {v : UInt64 × Bytes}

theorem requested_eq_some (h : requested included entries i = some v) :
    ∃ e ∈ entries, e.index = i ∧ v = e.row := by
  induction entries with
  | nil => cases h
  | cons e entries ih =>
    rw [requested] at h
    split_ifs at h with he
    · exact ⟨e, List.mem_cons_self, he.2, (Option.some.inj h).symm⟩
    · obtain ⟨x, hx, hrow⟩ := ih h
      exact ⟨x, List.mem_cons_of_mem _ hx, hrow⟩

theorem requested_eq_none (h : ∀ e ∈ entries, e.index ≠ i) :
    requested included entries i = none := by
  by_contra hsome
  obtain ⟨v, hv⟩ := Option.ne_none_iff_exists'.mp hsome
  obtain ⟨e, he, hi, -⟩ := requested_eq_some hv
  exact h e he hi

theorem requested_of_mem (horder : InOrder entries) {e : Log} (he : e ∈ entries)
    (hbehind : included < e.index) : requested included entries e.index = some e.row := by
  induction entries with
  | nil => cases he
  | cons x entries ih =>
    obtain ⟨hx, horder⟩ := List.pairwise_cons.mp horder
    rw [requested]
    rcases List.mem_cons.mp he with rfl | he
    · rw [if_pos ⟨hbehind, rfl⟩]
    · rw [if_neg fun h => (hx e he).ne h.2]
      exact ih horder he

theorem eq_of_index (horder : InOrder entries) {x y : Log} (hx : x ∈ entries) (hy : y ∈ entries)
    (h : x.index = y.index) : x = y := by
  have hnodup : (entries.map Log.index).Nodup := List.pairwise_map.mpr (horder.imp ne_of_lt)
  exact List.inj_on_of_nodup_map hnodup hx hy h

theorem term_of_quiet {s : SqliteStore} {e : Log} (h : ¬Conflicts s e) :
    ((s.logGet e.index).or (some e.row)).map Prod.fst = some e.term := by
  rcases hrow : s.logGet e.index with _ | v
  · rfl
  · by_contra hne
    exact h (conflicts_iff.mpr ⟨v, hrow, fun heq => hne (congrArg some heq)⟩)

theorem logGet_foldl_quiet (horder : InOrder entries) {acc : SqliteStore × UInt64}
    (hquiet : ∀ e ∈ entries, ¬Conflicts acc.1 e) (i : UInt64) :
    (entries.foldl (storeEntry included) acc).1.logGet i =
      (acc.1.logGet i).or (requested included entries i) := by
  induction entries generalizing acc with
  | nil => simp [requested]
  | cons e entries ih =>
    obtain ⟨s, last⟩ := acc
    obtain ⟨he, horder⟩ := List.pairwise_cons.mp horder
    obtain ⟨hfirst, hrest⟩ := List.forall_mem_cons.mp hquiet
    rw [List.foldl_cons]
    have hget (j : UInt64) : (storeEntry included (s, last) e).1.logGet j =
        (s.logGet j).or (if included < e.index ∧ e.index = j then some e.row else none) := by
      obtain ⟨hcovered, hsame⟩ | ⟨hbehind, -, hget⟩ | ⟨-, hconflict, -⟩ :=
        storeEntry_cases included last s e
      · rw [hsame, if_neg fun h => hcovered.not_gt h.1, Option.or_none]
      · rw [hget]
        by_cases hj : j = e.index
        · rw [if_pos hj, if_pos ⟨hbehind, hj.symm⟩]
        · rw [if_neg hj, if_neg fun h => hj h.2.symm, Option.or_none]
      · exact absurd hconflict hfirst
    rw [ih horder, hget, requested, Option.or_assoc]
    · congr 1
      split_ifs <;> simp
    · -- the entry does not touch the places of those behind it
      intro x hx
      have hne : ¬(included < e.index ∧ e.index = x.index) := fun h => (he x hx).ne h.2
      rw [conflicts_iff, hget, if_neg hne, Option.or_none, ← conflicts_iff]
      exact hrest x hx

theorem logGet_foldl_of_ne {acc : SqliteStore × UInt64} (hne : ∀ e ∈ entries, i ≠ e.index)
    (h : acc.1.logGet i = none) : (entries.foldl (storeEntry included) acc).1.logGet i = none := by
  induction entries generalizing acc with
  | nil => exact h
  | cons e entries ih =>
    obtain ⟨hfirst, hrest⟩ := List.forall_mem_cons.mp hne
    exact ih hrest (logGet_storeEntry_of_ne hfirst h)

theorem logGet_foldl_high {acc : SqliteStore × UInt64} {j k : UInt64} (hj : High j) (hk : ¬High k)
    (hlater : ∀ e ∈ entries, k < e.index) (h : acc.1.logGet j = some v ∨ acc.1.logGet k = none) :
    (entries.foldl (storeEntry included) acc).1.logGet j = some v ∨
      (entries.foldl (storeEntry included) acc).1.logGet k = none := by
  induction entries generalizing acc with
  | nil => exact h
  | cons e entries ih =>
    obtain ⟨s, last⟩ := acc
    obtain ⟨hfirst, hrest⟩ := List.forall_mem_cons.mp hlater
    refine ih hrest ?_
    rcases h with hv | hnone
    · obtain ⟨-, hsame⟩ | ⟨-, -, hget⟩ | ⟨-, -, hget⟩ := storeEntry_cases included last s e
      · exact .inl (by rw [hsame]; exact hv)
      · refine .inl ?_
        rw [hget, hv]
        split_ifs <;> rfl
      · -- a cut from a high index takes the low row, one from a low index leaves the high row
        by_cases he : High e.index
        · refine .inr ?_
          rw [hget, if_neg hfirst.ne, if_neg]
          rw [signed_lt_iff]
          tauto
        · refine .inl ?_
          have hne : j ≠ e.index := fun h => he (h ▸ hj)
          rw [hget, if_neg hne, if_pos (signed_lt_iff.mpr (.inl ⟨hj, he⟩)), hv]
    · exact .inr (logGet_storeEntry_of_ne hfirst.ne hnone)

end Stretch

/-- The entries of a request follow on `prev`. -/
def Consecutive (prev : UInt64) (entries : List Log) : Prop :=
  ∀ k e, entries[k]? = some e → e.index.toNat = prev.toNat + 1 + k

section Consecutive

variable {prev : UInt64} {entries : List Log}

theorem Consecutive.inOrder (h : Consecutive prev entries) : InOrder entries := by
  refine List.pairwise_iff_getElem.mpr fun i j hi hj hij => ?_
  have hi := h i _ (List.getElem?_eq_getElem hi)
  have hj := h j _ (List.getElem?_eq_getElem hj)
  rw [UInt64.lt_iff_toNat_lt]
  omega

theorem Consecutive.lt_index (h : Consecutive prev entries) {e : Log} (he : e ∈ entries) :
    prev < e.index := by
  obtain ⟨k, hk⟩ := List.mem_iff_getElem?.mp he
  have := h k e hk
  rw [UInt64.lt_iff_toNat_lt]
  omega

theorem Consecutive.exists_index {done rest : List Log} {e : Log}
    (h : Consecutive prev (done ++ e :: rest)) {j : UInt64} (hprev : prev < j) (hj : j < e.index) :
    ∃ x ∈ done, x.index = j := by
  have he := h done.length e (by simp)
  rw [UInt64.lt_iff_toNat_lt] at hprev hj
  have hk : j.toNat - prev.toNat - 1 < done.length := by omega
  refine ⟨_, List.getElem_mem hk, UInt64.toNat_inj.mp ?_⟩
  rw [h (j.toNat - prev.toNat - 1) _
    (by rw [List.getElem?_append_left hk, List.getElem?_eq_getElem hk])]
  omega

end Consecutive

/-! ## The loop up to its first conflict and behind it -/

/-- What a successful request is for. -/
structure LogMatches (s : SqliteStore) (prev : UInt64) (entries : List Log) (s' : SqliteStore) :
    Prop where
  /-- The entries are there, except those that the snapshot covers. -/
  there : ∀ e ∈ entries, s.lastIncludedIndex < e.index → s'.logGetTerm e.index = some e.term
  /-- Up to `prev` all is still there. -/
  kept : ∀ i v, i ≤ prev → s.logGet i = some v → s'.logGet i = some v
  /-- From a conflict on, the log is the request's. -/
  rewritten : ∀ e ∈ entries, Conflicts s e → ∀ i v, e.index ≤ i → s'.logGet i = some v →
    ∃ e' ∈ entries, e'.index = i ∧ v = e'.row

theorem LogMatches.of_log {s s₁ s₂ : SqliteStore} {prev : UInt64} {entries : List Log}
    (h : LogMatches s prev entries s₁) (hlog : s₂.raftLog = s₁.raftLog) :
    LogMatches s prev entries s₂ := by
  have hget : ∀ i, s₂.logGet i = s₁.logGet i := fun i => congrArg (OrdMap.get · i.signed) hlog
  refine ⟨fun e he hbehind => ?_, fun i v hi hv => ?_, fun e he hconflict i v hi hv => ?_⟩
  · rw [SqliteStore.logGetTerm, hget]
    exact h.there e he hbehind
  · rw [hget]
    exact h.kept i v hi hv
  · rw [hget] at hv
    exact h.rewritten e he hconflict i v hi hv

theorem logMatches_of_quiet {s : SqliteStore} {prev : UInt64} {entries : List Log}
    (horder : InOrder entries) (hquiet : ∀ e ∈ entries, ¬Conflicts s e) (last : UInt64) :
    LogMatches s prev entries (entries.foldl (storeEntry s.lastIncludedIndex) (s, last)).1 := by
  have hget := fun i => @logGet_foldl_quiet s.lastIncludedIndex entries horder (s, last) hquiet i
  refine ⟨fun e he hbehind => ?_, fun i v _ hv => ?_,
    fun e he hconflict => absurd hconflict (hquiet e he)⟩
  · rw [SqliteStore.logGetTerm, hget, requested_of_mem horder he hbehind]
    exact term_of_quiet (hquiet e he)
  · rw [hget, hv]
    rfl

/-- Cutting the log at the entry `e`, with the entries `done` before it and `rest` behind it, takes
what it should. -/
structure CutAt (s : SqliteStore) (done : List Log) (e : Log) (rest : List Log) : Prop where
  /-- A cut from a low index leaves the high rows. They have to be the request's. -/
  low : ¬High e.index → ∀ j v, High j → s.logGet j = some v → ∃ x ∈ rest, x.index = j ∧ v = x.row
  /-- A cut from a high index takes the low rows. There must be none, also none just stored. -/
  high : High e.index → (∀ j v, s.logGet j = some v → High j) ∧
    ∀ x ∈ done, s.lastIncludedIndex < x.index → High x.index

section Split

variable {s : SqliteStore} {prev last : UInt64} {done rest : List Log} {e : Log}
variable (hbehind : ∀ i v, s.logGet i = some v → s.lastIncludedIndex < i)
variable (hconsecutive : Consecutive prev (done ++ e :: rest))
variable (hquiet : ∀ x ∈ done, ¬Conflicts s x) (hconflict : Conflicts s e)

include hconsecutive in
theorem order_of_split : InOrder done ∧ InOrder rest ∧ (∀ x ∈ done, x.index < e.index) ∧
    (∀ x ∈ rest, e.index < x.index) := by
  obtain ⟨hdone, htail, hacross⟩ := List.pairwise_append.mp hconsecutive.inOrder
  obtain ⟨hrest, horder⟩ := List.pairwise_cons.mp htail
  exact ⟨hdone, horder, fun x hx => hacross x hx e List.mem_cons_self, hrest⟩

def afterCut (s : SqliteStore) (last : UInt64) (done : List Log) (e : Log) : SqliteStore × UInt64 :=
  storeEntry s.lastIncludedIndex (done.foldl (storeEntry s.lastIncludedIndex) (s, last)) e

include hbehind hconsecutive hquiet hconflict in
/-- It holds the entry, and below it, in the order of the table, what was there or
was just stored. -/
theorem logGet_afterCut (i : UInt64) : (afterCut s last done e).1.logGet i =
    if i = e.index then some e.row
    else if i.signed < e.index.signed then (s.logGet i).or (requested s.lastIncludedIndex done i)
    else none := by
  obtain ⟨hdone, -, hbefore, -⟩ := order_of_split hconsecutive
  have hget := fun i => @logGet_foldl_quiet s.lastIncludedIndex done hdone (s, last) hquiet i
  have hnone : requested s.lastIncludedIndex done e.index = none :=
    requested_eq_none fun x hx => (hbefore x hx).ne
  unfold afterCut
  rcases hacc : done.foldl (storeEntry s.lastIncludedIndex) (s, last) with ⟨s₁, last₁⟩
  simp only [hacc] at hget
  have hconflict₁ : Conflicts s₁ e := by
    rwa [conflicts_iff, hget, hnone, Option.or_none, ← conflicts_iff]
  obtain ⟨hcovered, -⟩ | ⟨-, hno, -⟩ | ⟨-, -, hcut⟩ :=
    storeEntry_cases s.lastIncludedIndex last₁ s₁ e
  · obtain ⟨v, hv, -⟩ := conflicts_iff.mp hconflict
    exact absurd hcovered (hbehind _ v hv).not_ge
  · exact absurd hconflict₁ hno
  · rw [hcut, hget]

include hbehind hconsecutive hquiet hconflict in
/-- Where the cut takes what it should, no entry behind it conflicts. -/
theorem CutAt.quiet (hcut : CutAt s done e rest) :
    ∀ x ∈ rest, ¬Conflicts (afterCut s last done e).1 x := by
  obtain ⟨-, horder, hbefore, hafter⟩ := order_of_split hconsecutive
  intro x hx hx'
  obtain ⟨v, hv, hne⟩ := conflicts_iff.mp hx'
  have hlt := hafter x hx
  rw [logGet_afterCut hbehind hconsecutive hquiet hconflict, if_neg hlt.ne'] at hv
  split_ifs at hv with hsigned
  have hnone : requested s.lastIncludedIndex done x.index = none :=
    requested_eq_none fun y hy => ((hbefore y hy).trans hlt).ne
  rw [hnone, Option.or_none] at hv
  obtain ⟨hhigh, hlow⟩ | ⟨-, hgt⟩ := signed_lt_iff.mp hsigned
  · obtain ⟨y, hy, hindex, rfl⟩ := hcut.low hlow _ _ hhigh hv
    exact hne (congrArg Log.term (eq_of_index horder hy hx hindex))
  · exact absurd hgt hlt.asymm

include hbehind hconsecutive hquiet hconflict in
theorem CutAt.logGet_foldl (hcut : CutAt s done e rest) (i : UInt64) :
    ((done ++ e :: rest).foldl (storeEntry s.lastIncludedIndex) (s, last)).1.logGet i =
      ((afterCut s last done e).1.logGet i).or (requested s.lastIncludedIndex rest i) := by
  rw [List.foldl_append, List.foldl_cons]
  exact logGet_foldl_quiet (order_of_split hconsecutive).2.1
    (hcut.quiet hbehind hconsecutive hquiet hconflict) i

include hbehind hconsecutive hquiet hconflict in
/-- What is below the entry and on its side of `2 ^ 63` stays. -/
theorem logGet_afterCut_of_lt {i : UInt64} (hi : i < e.index) (hside : High e.index → High i) :
    (afterCut s last done e).1.logGet i =
      (s.logGet i).or (requested s.lastIncludedIndex done i) := by
  rw [logGet_afterCut hbehind hconsecutive hquiet hconflict, if_neg hi.ne,
    if_pos (signed_lt_iff.mpr (.inr ⟨⟨fun h => h.of_lt hi, hside⟩, hi⟩))]

include hbehind hconsecutive hquiet hconflict in
theorem CutAt.rewritten (hcut : CutAt s done e rest) {i : UInt64} {v : UInt64 × Bytes}
    (hle : e.index ≤ i)
    (hv : ((done ++ e :: rest).foldl (storeEntry s.lastIncludedIndex) (s, last)).1.logGet i =
      some v) : ∃ y ∈ done ++ e :: rest, y.index = i ∧ v = y.row := by
  obtain ⟨-, -, hbefore, -⟩ := order_of_split hconsecutive
  have hrest {v : UInt64 × Bytes} (h : ∃ y ∈ rest, y.index = i ∧ v = y.row) :
      ∃ y ∈ done ++ e :: rest, y.index = i ∧ v = y.row := by
    obtain ⟨y, hy, hrow⟩ := h
    exact ⟨y, List.mem_append_right _ (List.mem_cons_of_mem _ hy), hrow⟩
  rw [hcut.logGet_foldl hbehind hconsecutive hquiet hconflict,
    logGet_afterCut hbehind hconsecutive hquiet hconflict] at hv
  split_ifs at hv with hie hsigned
  · cases hv
    exact ⟨e, List.mem_append_right _ List.mem_cons_self, hie.symm, rfl⟩
  · have hnone : requested s.lastIncludedIndex done i = none :=
      requested_eq_none fun y hy => ((hbefore y hy).trans_le hle).ne
    rw [hnone, Option.or_none] at hv
    rcases hold : s.logGet i with _ | w <;> rw [hold] at hv
    · exact hrest (requested_eq_some hv)
    · cases hv
      obtain ⟨hhigh, hlow⟩ | ⟨-, hgt⟩ := signed_lt_iff.mp hsigned
      · exact hrest (hcut.low hlow i _ hhigh hold)
      · exact absurd hgt hle.not_gt
  · exact hrest (requested_eq_some hv)

include hbehind hconsecutive hquiet hconflict in
theorem CutAt.logMatches (hcut : CutAt s done e rest) : LogMatches s prev (done ++ e :: rest)
    ((done ++ e :: rest).foldl (storeEntry s.lastIncludedIndex) (s, last)).1 := by
  obtain ⟨hdone, horder, hbefore, hafter⟩ := order_of_split hconsecutive
  have hget := fun i =>
    @CutAt.logGet_foldl s prev last done rest e hbehind hconsecutive hquiet hconflict hcut i
  refine ⟨fun x hx habove => ?_, fun i v hi hv => ?_, fun x hx hx' i v hi hv => ?_⟩
  · rw [SqliteStore.logGetTerm, hget]
    rcases List.mem_append.mp hx with hx | hx
    · rw [logGet_afterCut_of_lt hbehind hconsecutive hquiet hconflict (hbefore x hx)
        fun h => (hcut.high h).2 x hx habove, requested_of_mem hdone hx habove, Option.or_some,
        Option.some_or]
      exact (congrArg (Option.map Prod.fst) (Option.or_some ..)).symm.trans
        (term_of_quiet (hquiet x hx))
    · rcases List.mem_cons.mp hx with rfl | hx
      · rw [logGet_afterCut hbehind hconsecutive hquiet hconflict, if_pos rfl]
        rfl
      · rw [requested_of_mem horder hx habove]
        exact term_of_quiet (hcut.quiet hbehind hconsecutive hquiet hconflict x hx)
  · have hlt : i < e.index :=
      lt_of_le_of_lt hi (hconsecutive.lt_index (List.mem_append_right _ List.mem_cons_self))
    rw [hget, logGet_afterCut_of_lt hbehind hconsecutive hquiet hconflict hlt
      fun h => (hcut.high h).1 i v hv, hv]
    rfl
  · refine hcut.rewritten hbehind hconsecutive hquiet hconflict ?_ hv
    rcases List.mem_append.mp hx with hx | hx
    · exact absurd hx' (hquiet x hx)
    · rcases List.mem_cons.mp hx with rfl | hx
      · exact hi
      · exact (hafter x hx).le.trans hi

include hbehind hconsecutive hquiet hconflict in
/-- A cut from a high index, and what follows it, leave no low row. -/
theorem logGet_foldl_afterCut_of_high (hhigh : High e.index) {i : UInt64} (hi : ¬High i) :
    (rest.foldl (storeEntry s.lastIncludedIndex) (afterCut s last done e)).1.logGet i = none := by
  obtain ⟨-, -, -, hafter⟩ := order_of_split hconsecutive
  have hne : i ≠ e.index := fun heq => hi (heq ▸ hhigh)
  refine logGet_foldl_of_ne (fun x hx heq => hi (heq ▸ hhigh.of_lt (hafter x hx))) ?_
  rw [logGet_afterCut hbehind hconsecutive hquiet hconflict, if_neg hne, if_neg]
  rw [signed_lt_iff]
  tauto

include hbehind hconsecutive hquiet hconflict in
/-- And only then: otherwise a high row that is not the request's survives, or a low one is lost. -/
theorem cutAt_of_logMatches (h : LogMatches s prev (done ++ e :: rest)
    ((done ++ e :: rest).foldl (storeEntry s.lastIncludedIndex) (s, last)).1) :
    CutAt s done e rest := by
  obtain ⟨-, -, hbefore, hafter⟩ := order_of_split hconsecutive
  have hmem : e ∈ done ++ e :: rest := List.mem_append_right _ List.mem_cons_self
  have hfold : (done ++ e :: rest).foldl (storeEntry s.lastIncludedIndex) (s, last) =
      rest.foldl (storeEntry s.lastIncludedIndex) (afterCut s last done e) := by
    rw [List.foldl_append, List.foldl_cons]
    rfl
  rw [hfold] at h
  constructor
  · intro hlow j v hj hv
    have hne : j ≠ e.index := fun heq => hlow (heq ▸ hj)
    have hcut : (afterCut s last done e).1.logGet j = some v := by
      rw [logGet_afterCut hbehind hconsecutive hquiet hconflict, if_neg hne,
        if_pos (signed_lt_iff.mpr (.inl ⟨hj, hlow⟩)), hv]
      rfl
    have hlt : e.index < j := lt_of_high hlow hj
    rcases logGet_foldl_high hj hlow hafter (.inl hcut) with hfinal | hgone
    · obtain ⟨x, hx, hindex, hrow⟩ := h.rewritten e hmem hconflict j v hlt.le hfinal
      rcases List.mem_append.mp hx with hx | hx
      · exact absurd hindex (((hbefore x hx).trans hlt).ne)
      · rcases List.mem_cons.mp hx with rfl | hx
        · exact absurd hindex.symm hne
        · exact ⟨x, hx, hindex, hrow⟩
    · obtain ⟨v₀, hv₀, -⟩ := conflicts_iff.mp hconflict
      have hthere := h.there e hmem (hbehind _ v₀ hv₀)
      rw [SqliteStore.logGetTerm, hgone] at hthere
      cases hthere
  · intro hhigh
    have hgone {i : UInt64} (hi : ¬High i) :=
      @logGet_foldl_afterCut_of_high s prev last done rest e hbehind hconsecutive hquiet hconflict
        hhigh i hi
    have hdone : ∀ x ∈ done, s.lastIncludedIndex < x.index → High x.index := by
      intro x hx habove
      by_contra hlow
      have hthere := h.there x (List.mem_append_left _ hx) habove
      rw [SqliteStore.logGetTerm, hgone hlow] at hthere
      cases hthere
    refine ⟨fun j v hv => ?_, hdone⟩
    by_contra hlow
    by_cases hprev : j ≤ prev
    · have hkept := h.kept j v hprev hv
      rw [hgone hlow] at hkept
      cases hkept
    · obtain ⟨x, hx, rfl⟩ := hconsecutive.exists_index (not_le.mp hprev) (lt_of_high hlow hhigh)
      exact hlow (hdone x hx (hbehind _ v hv))

end Split

theorem forall_not_or_first {α : Type} (P : α → Prop) (l : List α) :
    (∀ x ∈ l, ¬P x) ∨ ∃ done e rest, l = done ++ e :: rest ∧ (∀ x ∈ done, ¬P x) ∧ P e := by
  induction l with
  | nil => exact .inl nofun
  | cons a l ih =>
    by_cases ha : P a
    · exact .inr ⟨[], a, l, rfl, nofun, ha⟩
    · rcases ih with hnone | ⟨done, e, rest, rfl, hdone, he⟩
      · exact .inl (List.forall_mem_cons.mpr ⟨ha, hnone⟩)
      · exact .inr ⟨a :: done, e, rest, rfl, List.forall_mem_cons.mpr ⟨ha, hdone⟩, he⟩

/-- At the first conflict, if there is one, the cut takes what it should. -/
def CutsFit (s : SqliteStore) (entries : List Log) : Prop :=
  ∀ done e rest, entries = done ++ e :: rest → (∀ x ∈ done, ¬Conflicts s x) → Conflicts s e →
    CutAt s done e rest

theorem logMatches_foldl_iff {s : SqliteStore} {prev : UInt64} {entries : List Log}
    (hbehind : ∀ i v, s.logGet i = some v → s.lastIncludedIndex < i)
    (hconsecutive : Consecutive prev entries) (last : UInt64) :
    LogMatches s prev entries (entries.foldl (storeEntry s.lastIncludedIndex) (s, last)).1 ↔
      CutsFit s entries := by
  constructor
  · rintro h done e rest rfl hquiet hconflict
    exact cutAt_of_logMatches hbehind hconsecutive hquiet hconflict h
  · intro h
    rcases forall_not_or_first (Conflicts s) entries with
      hquiet | ⟨done, e, rest, rfl, hquiet, hconflict⟩
    · exact logMatches_of_quiet hconsecutive.inOrder hquiet last
    · exact (h done e rest rfl hquiet hconflict).logMatches hbehind hconsecutive hquiet hconflict

/-! ## The request -/

theorem raftLog_of_accepts (self : Learner) {req : AppendEntriesRequest} {s : SqliteStore}
    (h : Accepts s req) :
    ((handleAppendEntries self req).final s).raftLog =
      (storeEntries (adoptTerm s req.term) req).1.raftLog := by
  obtain ⟨⟨kv, applied, hfinal⟩, -⟩ := applyCommitted_effect (stored s req)
  rw [final_handleAppendEntries, if_neg h.1, h.2]
  dsimp only
  rw [hfinal]
  unfold stored advanceCommit
  split_ifs <;> rfl

theorem logMatches_iff_of_accepts (self : Learner) {req : AppendEntriesRequest} {s : SqliteStore}
    (h : Accepts s req) (hbehind : ∀ i v, s.logGet i = some v → s.lastIncludedIndex < i)
    (hconsecutive : Consecutive req.prevLogEntry req.entries) :
    LogMatches s req.prevLogEntry req.entries ((handleAppendEntries self req).final s) ↔
      CutsFit s req.entries := by
  have hlog := raftLog_of_accepts self h
  obtain ⟨t, v, hadopt⟩ := adoptTerm_effect s req.term
  rw [hadopt] at hlog
  generalize (handleAppendEntries self req).final s = s' at hlog
  -- the term and the vote do not matter for the log
  set s₁ : SqliteStore := { s with currentTerm := t, votedFor := v }
  have hfold : LogMatches s₁ req.prevLogEntry req.entries (storeEntries s₁ req).1 ↔
      CutsFit s₁ req.entries := @logMatches_foldl_iff s₁ _ _ hbehind hconsecutive _
  constructor
  · intro h
    have h₁ : LogMatches s₁ req.prevLogEntry req.entries s' := ⟨h.there, h.kept, h.rewritten⟩
    intro done e rest hsplit hquiet hconflict
    have hcut := hfold.mp (h₁.of_log hlog.symm) done e rest hsplit hquiet hconflict
    exact ⟨hcut.low, hcut.high⟩
  · intro h
    have h₁ : LogMatches s₁ req.prevLogEntry req.entries s' :=
      (hfold.mpr fun done e rest hsplit hquiet hconflict =>
        ⟨(h done e rest hsplit hquiet hconflict).low,
          (h done e rest hsplit hquiet hconflict).high⟩).of_log hlog
    exact ⟨h₁.there, h₁.kept, h₁.rewritten⟩

/-- The cuts that a request makes, at `prev` or at an entry, take what they should. -/
structure CutsRight (s : SqliteStore) (req : AppendEntriesRequest) : Prop where
  /-- A cut from a high `prev` takes the low rows. There must be none. -/
  prev : ¬req.term < s.currentTerm → checkPrev s req.prevLogEntry req.prevLogTerm = .conflict →
    High req.prevLogEntry → ∀ j v, s.logGet j = some v → High j
  entries : Accepts s req → CutsFit s req.entries

/-- What a request may do that fails. -/
structure LogUnharmed (s : SqliteStore) (prev : UInt64) (s' : SqliteStore) : Prop where
  kept : ∀ i, i < prev → s'.logGet i = s.logGet i
  nothingAdded : ∀ i v, s'.logGet i = some v → s.logGet i = some v

theorem checkPrev_adoptTerm (s : SqliteStore) (term prev prevTerm : UInt64) :
    checkPrev (adoptTerm s term) prev prevTerm = checkPrev s prev prevTerm := by
  obtain ⟨t, v, hadopt⟩ := adoptTerm_effect s term
  rw [hadopt]
  rfl

theorem logUnharmed_logTruncateFrom_iff (s : SqliteStore) (prev : UInt64) :
    LogUnharmed s prev (s.logTruncateFrom prev) ↔
      (High prev → ∀ j v, s.logGet j = some v → High j) := by
  have hget := logGet_logTruncateFrom s prev
  constructor
  · intro h hhigh j v hv
    by_contra hlow
    have hkept := h.kept j (lt_of_high hlow hhigh)
    rw [hget, if_neg (by rw [signed_lt_iff]; tauto), hv] at hkept
    cases hkept
  · intro h
    refine ⟨fun i hi => ?_, fun i v hv => ?_⟩
    · rw [hget]
      split_ifs with hsigned
      · rfl
      · rcases hrow : s.logGet i with _ | v
        · rfl
        · exact absurd (signed_lt_iff.mpr
            (.inr ⟨⟨fun hi' => hi'.of_lt hi, fun hp => h hp i v hrow⟩, hi⟩)) hsigned
    · rw [hget] at hv
      split_ifs at hv
      exact hv

/-- **A request that succeeds makes the log match, and one that fails does no harm.** On a log
behind its snapshot and for entries that follow on `prev`, this is so exactly if the cuts that the
request makes take what they should. -/
theorem append_matches_iff (self : Learner) (s : SqliteStore) (req : AppendEntriesRequest)
    (hbehind : ∀ i v, s.logGet i = some v → s.lastIncludedIndex < i)
    (hconsecutive : Consecutive req.prevLogEntry req.entries)
    (resp : AppendEntriesResponse) (hresp : (handleAppendEntries self req).outcome s = .ok resp) :
    (resp.success = true →
        LogMatches s req.prevLogEntry req.entries ((handleAppendEntries self req).final s)) ∧
      (resp.success = false →
        LogUnharmed s req.prevLogEntry ((handleAppendEntries self req).final s)) ↔
      CutsRight s req := by
  have hsuccess := (reply_handleAppendEntries hresp).2
  by_cases haccepts : Accepts s req
  · have htrue := hsuccess.mpr haccepts
    have hentries := logMatches_iff_of_accepts self haccepts hbehind hconsecutive
    constructor
    · rintro ⟨h, -⟩
      refine ⟨fun _ hconflict => ?_, fun _ => hentries.mp (h htrue)⟩
      rw [← checkPrev_adoptTerm s req.term, haccepts.2] at hconflict
      cases hconflict
    · intro h
      refine ⟨fun _ => hentries.mpr (h.entries haccepts), fun hfalse => ?_⟩
      cases htrue.symm.trans hfalse
  · have hfalse : resp.success = false := Bool.eq_false_of_not_eq_true (mt hsuccess.mp haccepts)
    have hright : CutsRight s req ↔ (¬req.term < s.currentTerm →
        checkPrev s req.prevLogEntry req.prevLogTerm = .conflict →
          High req.prevLogEntry → ∀ j v, s.logGet j = some v → High j) :=
      ⟨CutsRight.prev, fun h => ⟨h, fun haccepts' => absurd haccepts' haccepts⟩⟩
    rw [hright, hfalse]
    simp only [Bool.false_eq_true, false_imp_iff, true_and, true_imp_iff]
    obtain ⟨t, v, hadopt⟩ := adoptTerm_effect s req.term
    rw [final_handleAppendEntries, checkPrev_adoptTerm]
    by_cases hpast : req.term < s.currentTerm
    · rw [if_pos hpast]
      exact iff_of_true ⟨fun _ _ => rfl, fun _ _ => id⟩ fun h => absurd hpast h
    rw [if_neg hpast, hadopt]
    rcases hprev : checkPrev s req.prevLogEntry req.prevLogTerm with _ | _ | _
    · exact absurd ⟨hpast, (checkPrev_adoptTerm s req.term _ _).trans hprev⟩ haccepts
    · refine iff_of_true ⟨fun _ _ => rfl, fun _ _ => id⟩ fun _ h => ?_
      cases h
    · have hcut := logUnharmed_logTruncateFrom_iff s req.prevLogEntry
      exact ⟨fun h _ _ => hcut.mp ⟨h.kept, h.nothingAdded⟩,
        fun h => ⟨(hcut.mpr (h hpast rfl)).kept, (hcut.mpr (h hpast rfl)).nothingAdded⟩⟩

def outdated : SqliteStore := ({ currentTerm := 1 } : SqliteStore).logAppend 1 1 (ascii "old")

def replacement : AppendEntriesRequest :=
  { term := 2, entries := [{ index := 1, term := 2, data := some (ascii "new") }] }

theorem append_matches_replaced :
    LogMatches outdated 0 replacement.entries
      ((handleAppendEntries browser replacement).final outdated) := by
  have hrow : ∀ {i v}, outdated.logGet i = some v → i = 1 := by
    intro i v hv
    rw [outdated, logGet_logAppend] at hv
    split_ifs at hv with hi
    · exact hi
    · cases hv
  have hlow : ¬High 1 := by decide
  have hresp : (handleAppendEntries browser replacement).outcome outdated =
      .ok ⟨myHeader browser, 2, 1, true, false⟩ := by decide +kernel
  refine ((append_matches_iff browser outdated replacement (fun i v hv => ?_) (fun k e he => ?_)
    _ hresp).mpr ⟨fun _ _ h => absurd h (by decide), fun _ done e rest hsplit _ _ => ?_⟩).1 rfl
  · rw [hrow hv]
    decide
  · obtain ⟨hk, rfl⟩ := List.getElem?_eq_some_iff.mp he
    have hk : k < 1 := hk
    obtain rfl : k = 0 := by omega
    rfl
  · have he : e.index = 1 := by
      have hmem : e ∈ replacement.entries := hsplit ▸ List.mem_append_right _ List.mem_cons_self
      rw [List.mem_singleton.mp hmem]
    refine ⟨fun _ j v hj hv => absurd (hrow hv ▸ hj) hlow, fun hhigh => absurd (he ▸ hhigh) hlow⟩

def aroundSign : SqliteStore :=
  (({} : SqliteStore).logAppend 0x7FFFFFFFFFFFFFFF 1 []).logAppend 0x8000000000000000 1 []

def replaceUpper : AppendEntriesRequest :=
  { term := 2, prevLogEntry := 0x7FFFFFFFFFFFFFFF, prevLogTerm := 1,
    entries := [{ index := 0x8000000000000000, term := 2 }] }

/-- The request succeeds, and the entry it builds on is gone. -/
theorem cut_across_sign :
    (handleAppendEntries browser replaceUpper).outcome aroundSign =
        .ok ⟨myHeader browser, 2, 0x8000000000000000, true, false⟩ ∧
      aroundSign.logGetTerm 0x7FFFFFFFFFFFFFFF = some 1 ∧
      ((handleAppendEntries browser replaceUpper).final aroundSign).logGetTerm 0x7FFFFFFFFFFFFFFF =
        none := by
  decide +kernel

/-! ## The last index that is reported -/

theorem lastIncludedIndex_handleAppendEntries (self : Learner) (req : AppendEntriesRequest)
    (s : SqliteStore) :
    ((handleAppendEntries self req).final s).lastIncludedIndex = s.lastIncludedIndex := by
  obtain ⟨t, v, hadopt⟩ := adoptTerm_effect s req.term
  rw [final_handleAppendEntries]
  split_ifs
  · rfl
  cases checkPrev (adoptTerm s req.term) req.prevLogEntry req.prevLogTerm with
  | missing => rw [hadopt]
  | conflict => rw [hadopt]; rfl
  | consistent =>
    obtain ⟨⟨log, hlog⟩, -⟩ := storeEntries_effect (adoptTerm s req.term) req
    obtain ⟨⟨kv, applied, hfinal⟩, -⟩ := applyCommitted_effect (stored s req)
    dsimp only
    rw [hfinal]
    unfold stored advanceCommit
    rw [hlog, hadopt]
    split_ifs <;> rfl

theorem IndexInv.lt_logLastIndex {s : SqliteStore} (h : IndexInv s)
    (hrows : s.raftLog.entries ≠ []) :
    s.lastIncludedIndex < s.logLastIndex := by
  obtain ⟨⟨idx, v⟩, hrow⟩ := Option.ne_none_iff_exists'.mp (mt List.getLast?_eq_none_iff.mp hrows)
  obtain ⟨i, rfl, hi, habove⟩ := h.rows idx v (OrdMap.get_eq_some.mpr (List.mem_of_getLast? hrow))
  rw [SqliteStore.logLastIndex, hrow, UInt64.lt_iff_toNat_lt]
  change s.lastIncludedIndex.toNat < (UInt64.ofSigned i.toNat).toNat
  rw [ofSigned_toNat hi]
  exact habove

/-- The log has a row left when the request is answered, as the rows before and the request say. -/
def RowLeft (s : SqliteStore) (req : AppendEntriesRequest) : Prop :=
  if req.term < s.currentTerm then s.raftLog.entries ≠ []
  else match checkPrev s req.prevLogEntry req.prevLogTerm with
    | .missing => s.raftLog.entries ≠ []
    | .conflict => ∃ i v, i < req.prevLogEntry ∧ s.logGet i = some v
    | .consistent => s.raftLog.entries ≠ [] ∨ ∃ e ∈ req.entries, s.lastIncludedIndex < e.index

theorem rows_ne_nil_of_logGet {s : SqliteStore} {i : UInt64} {v : UInt64 × Bytes}
    (h : s.logGet i = some v) : s.raftLog.entries ≠ [] :=
  List.ne_nil_of_mem (OrdMap.get_eq_some.mp h)

theorem rows_storeEntry (included last : UInt64) (s : SqliteStore) (e : Log) :
    (storeEntry included (s, last) e).1.raftLog.entries ≠ [] ↔
      s.raftLog.entries ≠ [] ∨ included < e.index := by
  obtain ⟨hcovered, hsame⟩ | ⟨hbehind, -, hget⟩ | ⟨hbehind, -, hget⟩ :=
    storeEntry_cases included last s e
  · rw [hsame, or_iff_left hcovered.not_gt]
  · refine iff_of_true ?_ (.inr hbehind)
    obtain ⟨v, hv⟩ : ∃ v, (s.logGet e.index).or (some e.row) = some v := by
      cases s.logGet e.index <;> exact ⟨_, rfl⟩
    exact rows_ne_nil_of_logGet ((hget e.index).trans ((if_pos rfl).trans hv))
  · exact iff_of_true (rows_ne_nil_of_logGet ((hget e.index).trans (if_pos rfl))) (.inr hbehind)

theorem rows_foldl_storeEntry (included : UInt64) (entries : List Log)
    (acc : SqliteStore × UInt64) :
    (entries.foldl (storeEntry included) acc).1.raftLog.entries ≠ [] ↔
      acc.1.raftLog.entries ≠ [] ∨ ∃ e ∈ entries, included < e.index := by
  induction entries generalizing acc with
  | nil => simp
  | cons e entries ih =>
    rw [List.foldl_cons, ih, rows_storeEntry, List.exists_mem_cons_iff, or_assoc]

theorem IndexInv.rows_logTruncateFrom {s : SqliteStore} (h : IndexInv s) {prev : UInt64}
    (hprev : ¬High prev) :
    (s.logTruncateFrom prev).raftLog.entries ≠ [] ↔ ∃ i v, i < prev ∧ s.logGet i = some v := by
  constructor
  · intro hne
    obtain ⟨⟨idx, v⟩, hrow⟩ := List.exists_mem_of_ne_nil _ hne
    have hget := OrdMap.get_eq_some.mpr hrow
    rw [SqliteStore.logTruncateFrom, OrdMap.get_filter] at hget
    split_ifs at hget with hlt
    obtain ⟨i, rfl, hi, -⟩ := h.rows idx v hget
    have hsigned : i.signed = i.toNat := UInt64.signed_of_lt hi
    refine ⟨i, v, ?_, by rw [SqliteStore.logGet, hsigned]; exact hget⟩
    have hlt := of_decide_eq_true hlt
    rw [← hsigned, signed_lt_iff] at hlt
    rcases hlt with ⟨hhigh, -⟩ | ⟨-, hlt⟩
    · exact absurd hhigh (not_le.mpr hi)
    · exact hlt
  · rintro ⟨i, v, hi, hv⟩
    refine rows_ne_nil_of_logGet (i := i) (v := v) ?_
    rw [logGet_logTruncateFrom, if_pos, hv]
    exact signed_lt_iff.mpr (.inr ⟨iff_of_false (fun h => hprev (h.of_lt hi)) hprev, hi⟩)

theorem IndexInv.not_high_of_conflict {s : SqliteStore} (h : IndexInv s) {prev prevTerm : UInt64}
    (hconflict : checkPrev s prev prevTerm = .conflict) : ¬High prev := by
  unfold checkPrev at hconflict
  by_cases hprev : prev = s.lastIncludedIndex
  · rw [hprev]
    exact not_le.mpr h.included
  · rw [if_neg hprev] at hconflict
    rcases hrow : s.logGet prev with _ | v
    · rw [SqliteStore.logGetTerm, hrow] at hconflict
      split_ifs at hconflict
      cases hconflict
    · obtain ⟨i, hi, hlt, -⟩ := h.rows prev.signed v hrow
      rw [← UInt64.signed_of_lt hlt, UInt64.signed_inj] at hi
      rw [hi]
      exact not_le.mpr hlt

theorem IndexInv.rowLeft_iff {s : SqliteStore} (h : IndexInv s) (self : Learner)
    (req : AppendEntriesRequest) :
    ((Web.handleAppendEntries self req).final s).raftLog.entries ≠ [] ↔ RowLeft s req := by
  unfold RowLeft
  by_cases hpast : req.term < s.currentTerm
  · rw [final_handleAppendEntries, if_pos hpast, if_pos hpast]
  obtain ⟨t, v, hadopt⟩ := adoptTerm_effect s req.term
  rw [if_neg hpast]
  rcases hprev : checkPrev s req.prevLogEntry req.prevLogTerm with _ | _ | _
  · have haccepts : Accepts s req := ⟨hpast, (checkPrev_adoptTerm ..).trans hprev⟩
    rw [raftLog_of_accepts self haccepts, hadopt]
    exact rows_foldl_storeEntry s.lastIncludedIndex req.entries _
  · rw [final_handleAppendEntries, if_neg hpast, checkPrev_adoptTerm, hprev, hadopt]
  · rw [final_handleAppendEntries, if_neg hpast, checkPrev_adoptTerm, hprev, hadopt]
    exact h.rows_logTruncateFrom (h.not_high_of_conflict hprev)

/-- **What a reply reports.** After any requests, all with indexes below `2 ^ 63`, the reply to a
further one for entries reports no less than the index of the snapshot exactly if there is no
snapshot, or the request leaves the log a row. -/
theorem last_log_covers_iff (self : Learner) (requests : List Request)
    (hsmall : ∀ r ∈ requests, SmallIndexes r) (req : AppendEntriesRequest)
    (hreq : SmallIndexes (.appendEntries req)) (resp : AppendEntriesResponse)
    (hresp : (handleAppendEntries self req).outcome (served self requests) = .ok resp) :
    (served self requests).lastIncludedIndex ≤ resp.lastLog ↔
      (served self requests).lastIncludedIndex = 0 ∨ RowLeft (served self requests) req := by
  have hinv := (indexInv_served self hsmall).handleAppendEntries self hreq
  rw [(reply_handleAppendEntries hresp).1, ← (indexInv_served self hsmall).rowLeft_iff self req,
    ← lastIncludedIndex_handleAppendEntries self req]
  generalize (handleAppendEntries self req).final (served self requests) = s at hinv
  by_cases hrows : s.raftLog.entries = []
  · have hzero : s.logLastIndex = 0 := by
      rw [SqliteStore.logLastIndex, hrows]
      rfl
    rw [hzero, or_iff_left (not_not.mpr hrows)]
    constructor
    · exact fun hle => le_antisymm hle (UInt64.le_iff_toNat_le.mpr (Nat.zero_le _))
    · exact le_of_eq
  · exact iff_of_true (hinv.lt_logLastIndex hrows).le (.inr hrows)

def fifthSnapshot : InstallSnapshotRequest := { term := 1, lastLogIndex := 5, lastLogTerm := 1 }

def sixthEntry : AppendEntriesRequest :=
  { term := 1, prevLogEntry := 5, prevLogTerm := 1, entries := [{ index := 6, term := 1 }] }

theorem last_log_covers_sixth :
    (handleAppendEntries browser sixthEntry).outcome
        (served browser [.installSnapshot fifthSnapshot []]) =
          .ok ⟨myHeader browser, 1, 6, true, false⟩ ∧
      (served browser [.installSnapshot fifthSnapshot []]).lastIncludedIndex ≤ 6 := by
  have hresp : (handleAppendEntries browser sixthEntry).outcome
      (served browser [.installSnapshot fifthSnapshot []]) =
        .ok ⟨myHeader browser, 1, 6, true, false⟩ := by
    decide +kernel
  refine ⟨hresp, ?_⟩
  refine (last_log_covers_iff browser [.installSnapshot fifthSnapshot []]
    (fun r hr => ?_) sixthEntry (fun e he => ?_) _ hresp).mpr (.inr ?_)
  · rw [List.mem_singleton.mp hr]
    change fifthSnapshot.lastLogIndex.toNat < 2 ^ 63
    decide
  · rw [List.mem_singleton.mp he]
    decide
  · have hprev :
        checkPrev (served browser [.installSnapshot fifthSnapshot []]) sixthEntry.prevLogEntry
        sixthEntry.prevLogTerm = .consistent := by decide +kernel
    rw [RowLeft, if_neg (by decide +kernel), hprev]
    exact .inr ⟨_, List.mem_singleton_self _, by decide +kernel⟩

/-- Behind the snapshot nothing is stored. A request that fits on to the snapshot succeeds, one that
leaves out an entry fails, and both replies report index zero. -/
theorem empty_log_reported :
    (served browser [.installSnapshot fifthSnapshot []]).lastIncludedIndex = 5 ∧
      (handleAppendEntries browser { sixthEntry with entries := [] }).outcome
          (served browser [.installSnapshot fifthSnapshot []]) =
            .ok ⟨myHeader browser, 1, 0, true, false⟩ ∧
      (handleAppendEntries browser { sixthEntry with prevLogEntry := 6, entries := [] }).outcome
          (served browser [.installSnapshot fifthSnapshot []]) =
            .ok ⟨myHeader browser, 1, 0, false, false⟩ := by
  decide +kernel

end KvRaft.Web
