import KvRaft.Lib.LeaderLog

/-! # What is committed stays

Once a prefix of a leader's log is committed, every later leader has it (`Inv.upTo_of_commit`), so
that any two commits agree (`Inv.commits_agree`), and a term that is led is led by the only node
that can collect the votes of a quorum (`Inv.boss_of_votes`). The quorums in question are of two
configurations, which need not meet. But a configuration is only appended behind a commit of its own
term, and by induction later logs have that commit as well. Two logs that share these commits have
latest configurations that are the same
or neighbours (`Shares.meet`). -/

namespace LeaderLog

variable {N E C : Type*} {S : Scheme N E C} {a : History N E}

/-! ## The latest configuration of a log -/

def LatestAt (S : Scheme N E C) (l : List E) (d : Nat) (c : C) : Prop :=
  (∃ x, l[d]? = some x ∧ S.config x = some c) ∧ ∀ e y, d < e → l[e]? = some y → S.config y = none

theorem LatestAt.of_conf {l : List E} {c : C} (h : S.conf l = some c) : ∃ d, LatestAt S l d c := by
  induction l using List.reverseRecOn with
  | nil => simp [Scheme.conf, Scheme.configs] at h
  | append_singleton l x ih =>
    rw [Scheme.conf, Scheme.configs, List.filterMap_append] at h
    cases hx : S.config x with
    | none =>
      simp only [List.filterMap_cons, hx, List.filterMap_nil, List.append_nil] at h
      obtain ⟨d, ⟨y, hy, hc⟩, hlast⟩ := ih h
      have hd := (List.getElem?_eq_some_iff.mp hy).1
      refine ⟨d, ⟨y, by rw [List.getElem?_append_left hd, hy], hc⟩, fun e z he hz => ?_⟩
      rcases List.getElem?_concat_cases hz with hz | ⟨-, rfl⟩
      · exact hlast e z he hz
      · exact hx
    | some c' =>
      obtain rfl : c' = c := by simpa [hx] using h
      refine ⟨l.length, ⟨x, by simp, hx⟩, fun e z he hz => ?_⟩
      rw [List.getElem?_eq_none (by simp; omega)] at hz
      cases hz

theorem LatestAt.le_of_config {l : List E} {d e : Nat} {c c' : C} {y : E} (h : LatestAt S l d c)
    (hy : l[e]? = some y) (hc : S.config y = some c') : e ≤ d := by
  by_contra hlt
  rw [h.2 e y (by omega) hy] at hc
  cases hc

variable {i k τ : Nat}

theorem lt_of_configs_eq {l : List E} {e : Nat} {y : E} {c : C} (hki : k ≤ i)
    (h : S.configs (l.take k) = S.configs (l.take i)) (he : e < i) (hy : l[e]? = some y)
    (hc : S.config y = some c) : e < k := by
  by_contra hge
  have hsplit : l.take i = l.take k ++ (l.take i).drop k := by
    have := (List.take_append_drop k (l.take i)).symm
    rwa [List.take_take, min_eq_left hki] at this
  rw [hsplit, Scheme.configs, Scheme.configs, List.filterMap_append] at h
  have hnone := List.filterMap_eq_nil_iff.mp (List.self_eq_append_right.mp h)
  have hmem : y ∈ (l.take i).drop k := by
    refine List.mem_of_getElem? (i := e - k) ?_
    rw [List.getElem?_drop, List.getElem?_take_of_lt (by omega), show k + (e - k) = e by omega, hy]
  rw [hnone y hmem] at hc
  cases hc

/-! ## Commits behind configurations -/

theorem getElem?_take_succ {l : List E} {d : Nat} : (l.take (d + 1))[d]? = l[d]? :=
  List.getElem?_take_of_lt (Nat.lt_succ_self d)

theorem length_take_succ {l : List E} {d : Nat} {x : E} (hx : l[d]? = some x) :
    (l.take (d + 1)).length = d + 1 := by
  have := (List.getElem?_eq_some_iff.mp hx).1
  rw [List.length_take]
  omega

section
variable (h : Inv S a)
include h

theorem Inv.lead_pos {t : Nat} (ht : a.lead t ≠ []) : 1 ≤ t := by
  obtain ⟨x, l, hl⟩ := List.exists_cons_of_ne_nil ht
  have hx : (a.lead t)[0]? = some x := by rw [hl]; rfl
  have := h.term_le hx
  rwa [h.head t x hx, S.term_genesis] at this

theorem Inv.config_before {l : List E} (hl : Rooted S a l) {d : Nat} (hd : 0 < d) {x : E} {c : C}
    (hx : l[d]? = some x) (hc : S.config x = some c) :
    ∃ c₀ d₀ z k m, (l[d₀]? = some z ∧ S.config z = some c₀ ∧ S.Next c₀ c) ∧
      (∀ e w c', e < d → l[e]? = some w → S.config w = some c' → e ≤ d₀) ∧
      a.commits (S.term x) k m ∧ d₀ < k ∧ k ≤ d ∧ m ≤ d ∧ a.upTo (S.term x) k = l.take k := by
  have hp := hl d x hx
  have hsame : ∀ i ≤ d, a.upTo (S.term x) i = l.take i := by
    intro i hi
    obtain ⟨rest, hrest⟩ := hp
    rw [History.upTo, ← hrest, List.take_append_of_le_length (by rw [length_take_succ hx]; omega),
      List.take_take, min_eq_left (by omega)]
  have hx' := hl.getElem? hx
  have hbase : a.base (S.term x) ≤ d := by
    by_contra hlt
    exact absurd ((h.terms _ d x hx').1 (by omega)) (lt_irrefl _)
  obtain ⟨c₀, k, m, hconf, hnext, hcommit, hk, hm, hconfigs⟩ := h.admitted _ d x c hx' hd hbase hc
  rw [hsame d le_rfl] at hconf hconfigs
  rw [hsame k hk] at hconfigs
  obtain ⟨d₀, hlatest⟩ := LatestAt.of_conf hconf
  obtain ⟨⟨z, hz, hcz⟩, -⟩ := id hlatest
  have hd₀ : d₀ < d := by
    have := (List.getElem?_eq_some_iff.mp hz).1
    rw [List.length_take] at this
    omega
  rw [List.getElem?_take_of_lt hd₀] at hz
  refine ⟨c₀, d₀, z, k, m, ⟨hz, hcz, hnext⟩, fun e w c' he hw hcw => ?_, hcommit, ?_, hk,
    hm, hsame k hk⟩
  · exact hlatest.le_of_config ((List.getElem?_take_of_lt he).trans hw) hcw
  · exact lt_of_configs_eq hk hconfigs hd₀ hz hcz

theorem Inv.commit_entry {t k m : Nat} (hc : a.commits t k m) {l : List E} (hp : a.upTo t k <+: l) :
    ∃ x, l[k - 1]? = some x ∧ S.term x = t := by
  obtain ⟨hbase, -, hlen, -⟩ := h.commits t k m hc
  obtain ⟨x, hx, hterm⟩ := h.own_entry hbase hlen
  exact ⟨x, hp.getElem?_of_some (by rw [upTo_getElem? a (by omega), hx]), hterm⟩

theorem Inv.commit_le_base {s k m t' : Nat} (hc : a.commits s k m) (hlt : s < t')
    (hp : a.upTo s k <+: a.lead t') :
    k ≤ a.base t' := by
  obtain ⟨x, hx, rfl⟩ := h.commit_entry hc hp
  by_contra hgt
  exact absurd ((h.terms t' _ x hx).2 (by omega)) hlt.ne

end

/-! ## Latest configurations of two logs -/

/-- The log `l'` has the commits behind which the entry `d` of `l` was appended. -/
def Shares (S : Scheme N E C) (a : History N E) (l : List E) (d : Nat) (l' : List E) : Prop :=
  ∀ x k m, l[d]? = some x → a.commits (S.term x) k m → k ≤ d → m ≤ d →
    a.upTo (S.term x) k = l.take k → a.upTo (S.term x) k <+: l'

section
variable (h : Inv S a) {l l' : List E} {d d' : Nat} {c c' : C}
include h

/-- The entry with the older term is in the other log: the one with the newer term was appended
behind a commit of that term, which both logs have. -/
theorem Shares.take_prefix_of_lt (hl : Rooted S a l) (hl' : Rooted S a l')
    (hd' : LatestAt S l' d' c')
    (hs' : Shares S a l' d' l) {x y : E} (hx : l[d]? = some x) (hy : l'[d']? = some y)
    (hlt : S.term x < S.term y) : l.take (d + 1) <+: l' := by
  obtain ⟨⟨y', hy', hcy⟩, -⟩ := id hd'
  obtain rfl : y' = y := Option.some.inj (hy'.symm.trans hy)
  rcases Nat.eq_zero_or_pos d' with rfl | hpos
  · -- the first entry is the oldest
    have hone : S.term y' = 1 := by
      rw [h.head _ y' (hl'.getElem? hy), S.term_genesis]
    have := h.lead_pos (t := S.term x) (fun hnil => by
      have := (hl d x hx).length_le
      rw [hnil, length_take_succ hx, List.length_nil] at this
      omega)
    omega
  · obtain ⟨c₀, d₀, z, k, m, -, -, hcommit, -, hk, hm, hsame⟩ := h.config_before hl' hpos hy hcy
    have hp := hs' y' k m hy hcommit hk hm hsame
    obtain ⟨w, hw, hwt⟩ := h.commit_entry hcommit hp
    have hdk : d < k - 1 := by
      by_contra hge
      have := h.rooted_mono hl (by omega) hw hx
      omega
    refine List.IsPrefix.trans ?_ (hsame ▸ List.take_prefix k l' : a.upTo (S.term y') k <+: l')
    refine List.prefix_of_prefix_length_le (List.take_prefix _ _) hp ?_
    rw [length_take_succ hx, length_upTo (h.commits _ _ _ hcommit).2.2.1]
    omega

theorem Shares.comparable (hl : Rooted S a l) (hl' : Rooted S a l') (hd : LatestAt S l d c)
    (hd' : LatestAt S l' d' c') (hs : Shares S a l d l') (hs' : Shares S a l' d' l) :
    l.take (d + 1) <+: l' ∨ l'.take (d' + 1) <+: l := by
  obtain ⟨⟨x, hx, -⟩, -⟩ := id hd
  obtain ⟨⟨y, hy, -⟩, -⟩ := id hd'
  rcases lt_trichotomy (S.term x) (S.term y) with hlt | heq | hlt
  · exact .inl (Shares.take_prefix_of_lt h hl hl' hd' hs' hx hy hlt)
  · refine (List.prefix_or_prefix_of_prefix (hl d x hx) (heq ▸ hl' d' y hy)).imp ?_ ?_
    · exact fun hp => hp.trans (List.take_prefix _ _)
    · exact fun hp => hp.trans (List.take_prefix _ _)
  · exact .inr (Shares.take_prefix_of_lt h hl' hl hd hs hy hx hlt)

theorem Shares.next_of_take (hl' : Rooted S a l') (hd : LatestAt S l d c)
    (hd' : LatestAt S l' d' c')
    (hs' : Shares S a l' d' l) (hp : l.take (d + 1) <+: l') : c = c' ∨ S.Next c c' := by
  obtain ⟨⟨x, hx, hcx⟩, -⟩ := id hd
  obtain ⟨⟨y, hy, hcy⟩, -⟩ := id hd'
  have hxl : l'[d]? = some x := hp.getElem?_of_some (getElem?_take_succ.trans hx)
  rcases (hd'.le_of_config hxl hcx).eq_or_lt with rfl | hlt
  · left
    obtain rfl : x = y := Option.some.inj (hxl.symm.trans hy)
    exact Option.some.inj (hcx.symm.trans hcy)
  · right
    obtain ⟨c₀, d₀, z, k, m, ⟨hz, hcz, hnext⟩, hlast, hcommit, hd₀, hk, hm, hsame⟩ :=
      h.config_before hl' (by omega) hy hcy
    have hzl : l[d₀]? = some z := by
      refine (hs' y k m hy hcommit hk hm hsame).getElem?_of_some ?_
      rw [hsame, List.getElem?_take_of_lt hd₀, hz]
    obtain rfl : d₀ = d := le_antisymm (hd.le_of_config hzl hcz) (hlast d x c hlt hxl hcx)
    obtain rfl : z = x := Option.some.inj (hzl.symm.trans hx)
    obtain rfl : c₀ = c := Option.some.inj (hcz.symm.trans hcx)
    exact hnext

theorem Shares.meet (hl : Rooted S a l) (hl' : Rooted S a l') (hd : LatestAt S l d c)
    (hd' : LatestAt S l' d' c')
    (hs : Shares S a l d l') (hs' : Shares S a l' d' l) {Q Q' : Set N} (hQ : S.Quorum c Q)
    (hQ' : S.Quorum c' Q') : (Q ∩ Q').Nonempty := by
  rcases Shares.comparable h hl hl' hd hd' hs hs' with hp | hp
  · rcases Shares.next_of_take h hl' hd hd' hs' hp with rfl | hnext
    · exact S.meet hQ hQ'
    · exact S.meet_next hnext hQ hQ'
  · rcases Shares.next_of_take h hl hd' hd hs hp with rfl | hnext
    · exact S.meet hQ hQ'
    · exact Set.inter_comm Q' Q ▸ S.meet_next hnext hQ' hQ

end

/-! ## A commit and a later election -/

section
variable (h : Inv S a)
include h

variable {k m t : Nat}

theorem Inv.lead_ne_nil_of_commit (hc : a.commits t k m) : a.lead t ≠ [] :=
  lead_ne_nil_of_lt (h.commits t k m hc).1 (h.commits t k m hc).2.2.1

/-- The quorum of a commit of `t` and the votes for a log with nothing newer than `t` meet, unless
that log has the commit anyway. -/
theorem Inv.commit_meet {c c' : C} {Q Q' : Set N} {l : List E} (hbase : a.base t < k)
    (hkm : k ≤ m + 1)
    (hconf : S.conf (a.upTo t m) = some c) (hQ : S.Quorum c Q) (hl : Rooted S a l)
    (hold : S.lastTerm l ≤ t) (hconf' : S.conf l = some c') (hQ' : S.Quorum c' Q')
    (hearly : ∀ s k₁ m₁, a.commits s k₁ m₁ → s < t ∨ s = t ∧ m₁ < m → a.upTo s k₁ <+: l)
    (hpast : ∀ s k₂ m₂, a.commits s k₂ m₂ → s < t → a.upTo s k₂ <+: a.lead t) :
    (Q ∩ Q').Nonempty ∨ a.upTo t k <+: l := by
  obtain ⟨d, hd⟩ := LatestAt.of_conf hconf
  obtain ⟨d', hd'⟩ := LatestAt.of_conf hconf'
  obtain ⟨⟨y, hy, hcy⟩, -⟩ := id hd'
  have hyt : S.term y ≤ t := (h.term_le_lastTerm hl (List.mem_of_getElem? hy)).trans hold
  by_cases hlate : S.term y = t ∧ m ≤ d'
  · -- the configuration of `l` was appended after the commit
    right
    obtain ⟨rfl, hm⟩ := hlate
    refine (List.prefix_of_prefix_length_le (List.take_prefix k _) (hl d' y hy) ?_).trans
      (List.take_prefix _ _)
    rw [length_take_succ hy, List.length_take]
    omega
  · left
    refine Shares.meet h ((h.lead_rooted t).take m) hl hd hd' (fun x k₁ m₁ hx hc hk₁ hm₁ _ => ?_)
      (fun y' k₂ m₂ hy' hc hk₂ hm₂ _ => ?_) hQ hQ'
    · have hdm : d < m := by
        have := (List.getElem?_eq_some_iff.mp hx).1
        rw [List.length_take] at this
        omega
      rw [List.getElem?_take_of_lt hdm] at hx
      exact hearly _ k₁ m₁ hc ((h.term_le hx).lt_or_eq.imp_right fun heq => ⟨heq, by omega⟩)
    · obtain rfl : y' = y := Option.some.inj (hy'.symm.trans hy)
      rcases hyt.lt_or_eq with hlt | heq
      · have hp := hpast _ k₂ m₂ hc hlt
        have := h.commit_le_base hc hlt hp
        exact List.prefix_take_iff.mpr ⟨hp, by rw [length_upTo (h.commits _ _ _ hc).2.2.1]; omega⟩
      · rw [heq]
        exact List.take_prefix_take_left (by omega)

/-- A log with the votes of a quorum for the term `t'` has every commit of an earlier term, if the
leaders up to then do. -/
theorem Inv.commit_in_voted {t' b : Nat} {c' : C} {Q' : Set N} {l : List E} (hl : Rooted S a l)
    (hterm : ∀ x ∈ l, S.term x < t') (hb : t' ≤ b) (hconf' : S.conf l = some c')
    (hQ' : S.Quorum c' Q') (hback : ∀ v ∈ Q', a.Backed v t' b l)
    (hlater : ∀ s k m τ, a.commits s k m → s < τ → τ < b → a.lead τ ≠ [] → a.upTo s k <+: a.lead τ)
    (hc : a.commits t k m) (hlt : t < t') : a.upTo t k <+: l := by
  have hlne := S.ne_nil_of_conf hconf'
  have hlast : S.lastTerm l < t' := S.lastTerm_eq hlne ▸ hterm _ (List.getLast_mem hlne)
  have hlead : a.lead (S.lastTerm l) ≠ [] :=
    fun hnil => hlne (List.prefix_nil.mp (hnil ▸ hl.prefix_lead hlne))
  induction t using Nat.strong_induction_on generalizing k m with
  | _ t iht =>
    induction m using Nat.strong_induction_on generalizing k with
    | _ m ihm =>
      rcases Nat.lt_or_ge t (S.lastTerm l) with hnew | hold
      · exact h.upTo_prefix_of_later hl hnew (hlater t k m _ hc hnew (hlast.trans_le hb) hlead)
      · obtain ⟨hbase, hkm, -, -, c, Q, hconf, hQ, hack⟩ := h.commits t k m hc
        have hearly : ∀ s k₁ m₁, a.commits s k₁ m₁ → s < t ∨ s = t ∧ m₁ < m →
            a.upTo s k₁ <+: l := by
          rintro s k₁ m₁ hc₁ (hs | ⟨rfl, hm₁⟩)
          · exact iht s hs hc₁ (hs.trans hlt)
          · exact ihm m₁ hm₁ hc₁
        have hpast : ∀ s k₂ m₂, a.commits s k₂ m₂ → s < t → a.upTo s k₂ <+: a.lead t :=
          fun s k₂ m₂ hc₂ hs =>
          hlater s k₂ m₂ t hc₂ hs (hlt.trans_le hb) (h.lead_ne_nil_of_commit hc)
        rcases h.commit_meet hbase hkm hconf hQ hl hold hconf' hQ' hearly hpast with
          ⟨v, hv, hv'⟩ | hp
        · rcases hback v hv' t k hlt hbase (hack v hv) with hp | ⟨τ, htτ, hτ, hne, hnot⟩
          · exact hp
          · exact absurd (hlater t k m τ hc htτ hτ hne) hnot
        · exact hp

/-- Every later leader has what was committed. -/
theorem Inv.upTo_of_commit {t' : Nat} (hc : a.commits t k m) (hlt : t < t') (hne : a.lead t' ≠ []) :
    a.upTo t k <+: a.lead t' := by
  induction t' using Nat.strong_induction_on generalizing t k m with
  | _ t' ih =>
    obtain ⟨n, l, c', Q', -, hcamp, -, hl, hconf', hQ', hvotes⟩ :=
      (h.elected t' hne).resolve_left (by have := h.lead_pos (h.lead_ne_nil_of_commit hc); omega)
    obtain ⟨-, hterm, hroot⟩ := h.camp n t' l hcamp
    refine List.IsPrefix.trans ?_ hl
    refine h.commit_in_voted hroot hterm le_rfl hconf' hQ' (fun v hv => (hvotes v hv).2) ?_ hc hlt
    exact fun s k m τ hc hs hτ hne => ih τ hτ hc hs hne

theorem Inv.boss_of_votes {n : N} {l : List E} {c : C} {Q : Set N} (hcamp : a.camp n t = some l)
    (hconf : S.conf l = some c) (hQ : S.Quorum c Q) (hvotes : ∀ v ∈ Q, a.vote v t = some n)
    (hne : a.lead t ≠ []) :
    a.boss t = some n := by
  obtain ⟨-, hterm, hl⟩ := h.camp n t l hcamp
  have hlne := S.ne_nil_of_conf hconf
  have ht : t ≠ 1 := by
    rintro rfl
    have hlead := h.lead_pos (fun hnil => hlne (List.prefix_nil.mp (hnil ▸ hl.prefix_lead hlne)))
    have := S.lastTerm_eq hlne ▸ hterm _ (List.getLast_mem hlne)
    omega
  obtain ⟨n', l', c', Q', hboss, hcamp', hb, hlead, hconf', hQ', hvotes'⟩ :=
    (h.elected t hne).resolve_left ht
  obtain ⟨-, hterm', hl'⟩ := h.camp n' t l' hcamp'
  -- both logs have every commit before the term
  have hin : ∀ s k m, a.commits s k m → s < t → a.upTo s k <+: l := fun s k m hc hs =>
    h.commit_in_voted hl hterm (Nat.le_succ t) hconf hQ
      (fun v hv => h.pledged v t n l (hvotes v hv) hcamp)
      (fun s k m τ hc hs _ hne => h.upTo_of_commit hc hs hne) hc hs
  have hin' : ∀ s k m, a.commits s k m → s < t → a.upTo s k <+: l' := fun s k m hc hs =>
    h.commit_in_voted hl' hterm' le_rfl hconf' hQ' (fun v hv => (hvotes' v hv).2)
      (fun s k m τ hc hs _ hne => h.upTo_of_commit hc hs hne) hc hs
  obtain ⟨d, hd⟩ := LatestAt.of_conf hconf
  obtain ⟨d', hd'⟩ := LatestAt.of_conf hconf'
  obtain ⟨v, hv, hv'⟩ := Shares.meet h hl hl' hd hd'
    (fun x k m hx hc _ _ _ => hin' _ k m hc (hterm x (List.mem_of_getElem? hx)))
    (fun x k m hx hc _ _ _ => hin _ k m hc (hterm' x (List.mem_of_getElem? hx))) hQ hQ'
  have hsame := (hvotes v hv).symm.trans (hvotes' v hv').1
  rw [hboss, hsame]

end

/-- Any two commits agree. -/
theorem Inv.commits_agree (h : Inv S a) {t m t' k' m' : Nat} (hc : a.commits t k m)
    (hc' : a.commits t' k' m') :
    a.upTo t k <+: a.upTo t' k' ∨ a.upTo t' k' <+: a.upTo t k := by
  rcases lt_trichotomy t t' with hlt | rfl | hlt
  · exact List.prefix_or_prefix_of_prefix (h.upTo_of_commit hc hlt (h.lead_ne_nil_of_commit hc'))
      (List.take_prefix _ _)
  · exact List.prefix_or_prefix_of_prefix (List.take_prefix _ _) (List.take_prefix _ _)
  · exact List.prefix_or_prefix_of_prefix (List.take_prefix _ _)
      (h.upTo_of_commit hc' hlt (h.lead_ne_nil_of_commit hc))

/-! ## Settled entries -/

/-- The first `i` entries of the log `l` are those of a commit in a term up to `τ`. -/
def Settled (a : History N E) (l : List E) (τ i : Nat) : Prop :=
  i = 0 ∨ ∃ t k m, a.commits t k m ∧ t ≤ τ ∧ i ≤ k ∧ a.upTo t i = l.take i

theorem settled_zero (a : History N E) (l : List E) (τ : Nat) : Settled a l τ 0 := .inl rfl

theorem Settled.mono {l : List E} {τ' : Nat} (hs : Settled a l τ i) (hτ : τ ≤ τ') :
    Settled a l τ' i := by
  rcases hs with rfl | ⟨t, k, m, hc, ht, hrest⟩
  · exact settled_zero a l τ'
  · exact .inr ⟨t, k, m, hc, ht.trans hτ, hrest⟩

theorem Settled.of_take_eq {l l' : List E} (hs : Settled a l τ i) (htake : l'.take i = l.take i) :
    Settled a l' τ i := by
  rcases hs with rfl | ⟨t, k, m, hc, ht, hi, heq⟩
  · exact settled_zero a l' τ
  · exact .inr ⟨t, k, m, hc, ht, hi, heq.trans htake.symm⟩

theorem Settled.of_le {l : List E} {j : Nat} (hs : Settled a l τ i) (hj : j ≤ i) :
    Settled a l τ j := by
  rcases hs with rfl | ⟨t, k, m, hc, ht, hi, heq⟩
  · rw [Nat.le_zero.mp hj]
    exact settled_zero a l τ
  · refine .inr ⟨t, k, m, hc, ht, hj.trans hi, ?_⟩
    have := congrArg (List.take j) heq
    rwa [History.upTo, List.take_take, List.take_take, min_eq_left hj] at this

section
variable (h : Inv S a)
include h

variable {i τ : Nat}

theorem Settled.length_le {l : List E} (hs : Settled a l τ i) : i ≤ l.length := by
  rcases hs with rfl | ⟨t, k, m, hc, -, hi, heq⟩
  · exact Nat.zero_le _
  · have := congrArg List.length heq
    rw [length_upTo (hi.trans (h.commits t k m hc).2.2.1), List.length_take] at this
    omega

theorem Settled.take_of_lead {l : List E} {t' : Nat} (hs : Settled a l τ i) (hτ : τ ≤ t')
    (hne : a.lead t' ≠ []) : l.take i <+: a.lead t' := by
  rcases hs with rfl | ⟨t, k, m, hc, ht, hi, heq⟩
  · simp
  · rw [← heq]
    rcases (ht.trans hτ).eq_or_lt with rfl | hlt
    · exact List.take_prefix _ _
    · exact (List.take_prefix_take_left hi).trans (h.upTo_of_commit hc hlt hne)

/-- What two logs have settled does not differ. -/
theorem Settled.agree {l l' : List E} {τ' j : Nat} (hs : Settled a l τ i) (hs' : Settled a l' τ' j)
    (hij : i ≤ j) :
    l.take i <+: l'.take j := by
  rcases hs with rfl | ⟨t, k, m, hc, -, hi, heq⟩
  · simp
  rcases hs' with rfl | ⟨t', k', m', hc', -, hj, heq'⟩
  · rw [Nat.le_zero.mp hij]
    simp
  rw [← heq, ← heq']
  have hk := (h.commits t k m hc).2.2.1
  have hk' := (h.commits t' k' m' hc').2.2.1
  have hlen : (a.upTo t i).length ≤ (a.upTo t' j).length := by
    rw [length_upTo (hi.trans hk), length_upTo (hj.trans hk')]
    exact hij
  have hp : a.upTo t i <+: a.upTo t k := List.take_prefix_take_left hi
  have hp' : a.upTo t' j <+: a.upTo t' k' := List.take_prefix_take_left hj
  rcases h.commits_agree hc hc' with hq | hq
  · exact List.prefix_of_prefix_length_le (hp.trans hq) hp' hlen
  · exact List.prefix_of_prefix_length_le hp (hp'.trans hq) hlen

end

theorem Settled.extends {a' : History N E} (h : Inv S a) (hext : Extends a a') {l : List E}
    (hs : Settled a l τ i) : Settled a' l τ i := by
  rcases hs with rfl | ⟨t, k, m, hc, ht, hi, heq⟩
  · exact settled_zero a' l τ
  · refine .inr ⟨t, k, m, hext.commits t k m hc, ht, hi, ?_⟩
    rw [hext.grows.upTo (hi.trans (h.commits t k m hc).2.2.1), heq]

section
variable [DecidableEq N] {a' : History N E} {n : N}

/-- A node never overwrites what is settled in its log. -/
theorem Settled.step (h : Inv S a) (hs : Step S n a a') {m : N} {i : Nat}
    (hset : Settled a (a.log m) (a.cur m) i) :
    Settled a' (a'.log m) (a'.cur m) i := by
  have hset' := (hset.extends h (hs.extends h)).mono (hs.cur_le m)
  rcases hs.log_cases m with hlog | ⟨rfl, -, hne, j, hlog, hkeep⟩
  · rwa [hlog]
  · have hi := hset.length_le h
    have hp := hset.take_of_lead h le_rfl hne
    have hij := hkeep i hi hp
    refine hset'.of_take_eq ?_
    rw [hlog, History.upTo, List.take_take, min_eq_left hij, List.prefix_iff_eq_take.mp hp,
      List.length_take, min_eq_left hi]

theorem Settled.run (h : Inv S a) (hrun : Relation.ReflTransGen (Step S n) a a') {m : N} {i : Nat}
    (hset : Settled a (a.log m) (a.cur m) i) : Settled a' (a'.log m) (a'.cur m) i := by
  induction hrun with
  | refl => exact hset
  | tail hrun hs ih => exact ih.step (h.run hrun) hs

end

end LeaderLog
