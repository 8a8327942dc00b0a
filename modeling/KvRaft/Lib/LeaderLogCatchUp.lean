import KvRaft.Lib.LeaderLogSafety

/-! # Bringing a log in line with a leader's

A leader does not know where a node's log leaves its own. It guesses, and goes back as long as the
node refuses. `Behind a n t p` says that a guess is on the safe side: as soon as the node `n` has
reached the term `t` of the leader, its log leaves the leader's within the first `p + 1` entries, or
not at all. A node that accepts after such a guess is in line from then on (`Synced`); a refusal
(`Rejected`) allows the next guess (`Rejected.behind`).

All of this is about two logs, so it is lost by no step of anybody (`Behind.step`, `Synced.step`,
`Rejected.step`). -/

namespace LeaderLog

variable {N E C : Type*} {S : Scheme N E C} {a a' : History N E} {n m : N} {t p : Nat}

/-- As long as the node is in the term, its log is a prefix of the leader's. -/
def Synced (a : History N E) (n : N) (t : Nat) : Prop :=
  t < a.cur n ∨ a.cur n = t ∧ a.log n <+: a.lead t

def Behind (a : History N E) (n : N) (t p : Nat) : Prop :=
  Synced a n t ∨ a.cur n = t ∧ ¬(a.log n).take (p + 1) <+: a.lead t ∨ a.cur n < t ∧ a.base t ≤ p

/-- The node refused the leader's entries behind the first `p`, with `last` entries in
its own log. -/
def Rejected (a : History N E) (n : N) (t p last : Nat) : Prop :=
  Synced a n t ∨ a.cur n = t ∧ ¬(a.log n).take p <+: a.lead t ∧ last = (a.log n).length

theorem Rejected.behind {last : Nat} (h : Rejected a n t p last) :
    Behind a n t (max (min p (last + 1)) 1 - 1) := by
  rcases h with hs | ⟨hcur, hnot, rfl⟩
  · exact .inl hs
  · refine .inr (.inl ⟨hcur, fun hp => hnot ?_⟩)
    rcases Nat.lt_or_ge (a.log n).length p with hlt | hge
    · -- the whole log
      rw [show max (min p ((a.log n).length + 1)) 1 - 1 + 1 = (a.log n).length + 1 by omega,
        List.take_of_length_le (by omega)] at hp
      rwa [List.take_of_length_le (by omega)]
    · rcases Nat.eq_zero_or_pos p with rfl | hpos
      · simp at hnot
      · rwa [show max (min p ((a.log n).length + 1)) 1 - 1 + 1 = p by omega] at hp

theorem behind_of_length_le (hle : a.base t ≤ p) (hlen : (a.lead t).length ≤ p) :
    Behind a n t p := by
  rcases lt_trichotomy (a.cur n) t with hlt | heq | hgt
  · exact .inr (.inr ⟨hlt, hle⟩)
  · by_cases hp : (a.log n).take (p + 1) <+: a.lead t
    · refine .inl (.inr ⟨heq, ?_⟩)
      have := hp.length_le
      rw [List.length_take] at this
      rwa [List.take_of_length_le (by omega)] at hp
    · exact .inr (.inl ⟨heq, hp⟩)
  · exact .inl (.inl hgt)

theorem Synced.behind (h : Synced a n t) : Behind a n t p := .inl h

theorem Rooted.take_eq_of_term {l l' : List E} (hl : Rooted S a l) (hl' : Rooted S a l')
    {i : Nat} {x y : E} (hx : l[i]? = some x) (hy : l'[i]? = some y) (hterm : S.term x = S.term y) :
    l.take (i + 1) = l'.take (i + 1) := by
  have hp := hl i x hx
  rw [hterm] at hp
  refine (List.prefix_of_prefix_length_le hp (hl' i y hy) ?_).eq_of_length ?_
  · rw [length_take_succ hx, length_take_succ hy]
  · rw [length_take_succ hx, length_take_succ hy]

section
variable [DecidableEq N]

theorem Step.place_cases (hs : Step S m a a') (n : N) :
    a.cur n = a'.cur n ∧ a'.log n = a.log n ∨
      a.cur n < a'.cur n ∧ a'.log n = a.log n ∨
      a.cur n = a'.cur n ∧ a'.log n <+: a.lead (a.cur n) := by
  rcases hs.log_cases n with hlog | ⟨rfl, hcur, -, j, hlog, -⟩
  · rcases (hs.cur_le n).eq_or_lt with hcur | hcur
    · exact .inl ⟨hcur, hlog⟩
    · exact .inr (.inl ⟨hcur, hlog⟩)
  · exact .inr (.inr ⟨hcur.symm, hlog ▸ List.take_prefix _ _⟩)

theorem Step.not_prefix_lead (hs : Step S m a a') (ht : a.lead t ≠ []) {l : List E}
    (hl : Rooted S a l) (hnot : ¬l <+: a.lead t) : ¬l <+: a'.lead t := by
  rcases hs.lead_cases t with ⟨heq, -⟩ | ⟨-, hnil, -⟩ | ⟨-, -, -, x, hx, -, heq, -⟩
  · rwa [heq]
  · exact absurd hnil ht
  · rw [heq, List.prefix_concat_iff]
    rintro (rfl | hp)
    · have := (hl (a.lead t).length x (by simp)).length_le
      rw [hx, List.length_take, List.length_append, List.length_singleton] at this
      omega
    · exact hnot hp

end

section
variable (h : Inv S a)
include h

/-- A log with an entry of the leader's term, and none of a later one, is a prefix
of the leader's. -/
theorem Inv.prefix_of_own {l : List E} (hl : Rooted S a l) (hle : ∀ x ∈ l, S.term x ≤ t) {x : E}
    (hx : x ∈ l) (ht : S.term x = t) : l <+: a.lead t := by
  have hne : l ≠ [] := List.ne_nil_of_mem hx
  have hp := hl.prefix_lead hne
  have : S.lastTerm l = t := by
    refine le_antisymm ?_ (ht ▸ h.term_le_lastTerm hl hx)
    rw [S.lastTerm_eq hne]
    exact hle _ (List.getLast_mem hne)
  rwa [this] at hp

/-- A node that has not reached the term leaves the leader's log where the leader's own entries
begin, at the latest. -/
theorem Inv.behind_of_old {l : List E} (hold : ∀ x ∈ l, S.term x < t) (hp : a.base t ≤ p) :
    l <+: a.lead t ∨ ¬l.take (p + 1) <+: a.lead t := by
  by_cases hlen : l.length ≤ p + 1
  · rw [List.take_of_length_le hlen]
    exact em _
  · right
    intro hq
    have hlt : a.base t < l.length := by omega
    have hx := List.getElem?_eq_getElem hlt
    have hx' : (l.take (p + 1))[a.base t]? = some l[a.base t] := by
      rw [List.getElem?_take_of_lt (by omega), hx]
    have := (h.terms t _ _ (hq.getElem?_of_some hx')).2 le_rfl
    have := hold _ (List.getElem_mem hlt)
    omega

variable [DecidableEq N]

theorem Synced.step (hs : Step S m a a') (hsync : Synced a n t) : Synced a' n t := by
  have hgrows := (hs.extends h).grows
  rcases hsync with hlt | ⟨hcur, hlog⟩
  · exact .inl (hlt.trans_le (hs.cur_le n))
  · rcases hs.place_cases n with ⟨hsame, heq⟩ | ⟨hlt, -⟩ | ⟨hsame, hp⟩
    · exact .inr ⟨by omega, heq ▸ hlog.trans (hgrows t)⟩
    · exact .inl (by omega)
    · exact .inr ⟨by omega, (hcur ▸ hp).trans (hgrows t)⟩

theorem Behind.step (hs : Step S m a a') (ht : a.lead t ≠ []) (hb : Behind a n t p) :
    Behind a' n t p := by
  have hgrows := (hs.extends h).grows
  rcases hb with hsync | ⟨hcur, hnot⟩ | ⟨hlt, hbase⟩
  · exact .inl (hsync.step h hs)
  · rcases hs.place_cases n with ⟨hsame, heq⟩ | ⟨hlt, -⟩ | ⟨hsame, hp⟩
    · exact .inr (.inl ⟨by omega, heq ▸ hs.not_prefix_lead ht ((h.log_rooted n).take _) hnot⟩)
    · exact .inl (.inl (by omega))
    · exact .inl (.inr ⟨by omega, (hcur ▸ hp).trans (hgrows t)⟩)
  · have hbase' : a'.base t ≤ p := by rwa [(hs.extends h).base t ht]
    rcases lt_trichotomy (a'.cur n) t with hlt' | heq | hgt
    · exact .inr (.inr ⟨hlt', hbase'⟩)
    · -- the node reaches the term, with a log of older entries
      have hlog : a'.log n = a.log n := by
        rcases hs.place_cases n with ⟨-, hlog⟩ | ⟨-, hlog⟩ | ⟨hsame, -⟩
        · exact hlog
        · exact hlog
        · omega
      have hold : ∀ x ∈ a'.log n, S.term x < t := by
        intro x hx
        exact (h.log_term n x (hlog ▸ hx)).trans_lt hlt
      rcases (h.step hs).behind_of_old hold hbase' with hp | hp
      · exact .inl (.inr ⟨heq, hp⟩)
      · exact .inr (.inl ⟨heq, hp⟩)
    · exact .inl (.inl hgt)

theorem Rejected.step {last : Nat} (hs : Step S m a a') (ht : a.lead t ≠ [])
    (hr : Rejected a n t p last) :
    Rejected a' n t p last := by
  rcases hr with hsync | ⟨hcur, hnot, hlast⟩
  · exact .inl (hsync.step h hs)
  · rcases hs.place_cases n with ⟨hsame, heq⟩ | ⟨hlt, -⟩ | ⟨hsame, hp⟩
    · exact .inr ⟨by omega, heq ▸ hs.not_prefix_lead ht ((h.log_rooted n).take _) hnot, heq ▸ hlast⟩
    · exact .inl (.inl (by omega))
    · exact .inl (.inr ⟨by omega, (hcur ▸ hp).trans ((hs.extends h).grows t)⟩)

end

section
variable [DecidableEq N] (h : Inv S a) (hrun : Relation.ReflTransGen (Step S m) a a')
include h hrun

theorem Synced.run (hsync : Synced a n t) : Synced a' n t := by
  induction hrun with
  | refl => exact hsync
  | tail hrun hs ih => exact ih.step (h.run hrun) hs

theorem lead_ne_nil_run (ht : a.lead t ≠ []) : a'.lead t ≠ [] :=
  fun hnil => ht (List.prefix_nil.mp (hnil ▸ (Extends.run h hrun).grows t))

theorem Behind.run (ht : a.lead t ≠ []) (hb : Behind a n t p) : Behind a' n t p := by
  induction hrun with
  | refl => exact hb
  | tail hrun hs ih => exact ih.step (h.run hrun) hs (lead_ne_nil_run h hrun ht)

theorem Rejected.run {last : Nat} (ht : a.lead t ≠ []) (hr : Rejected a n t p last) :
    Rejected a' n t p last := by
  induction hrun with
  | refl => exact hr
  | tail hrun hs ih => exact ih.step (h.run hrun) hs (lead_ne_nil_run h hrun ht)

end

end LeaderLog
