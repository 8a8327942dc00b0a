import Mathlib.Logic.Relation
import Mathlib.Tactic

/-! # Runs of a transition system

A system is a step relation; its runs are the relation's reflexive and transitive closure. -/

theorem Nat.exists_turn {P : Nat → Prop} {i j : Nat} (hij : i ≤ j) (hi : ¬P i) (hj : P j) :
    ∃ t, i ≤ t ∧ t < j ∧ ¬P t ∧ P (t + 1) := by
  induction j, hij using Nat.le_induction with
  | base => exact absurd hj hi
  | succ j hij ih =>
    by_cases hp : P j
    · obtain ⟨t, hit, htj, ht⟩ := ih hp
      exact ⟨t, hit, by omega, ht⟩
    · exact ⟨j, hij, by omega, hp, hj⟩

/-- Along a run of `n` steps, all steps have their property exactly if all meet their condition, as
long as an invariant, kept by the steps that meet the condition, makes the two equivalent. -/
theorem Nat.forall_lt_iff {n : Nat} {I : Nat → Prop} {P C : ∀ i, i < n → Prop} (hinit : I 0)
    (hstep : ∀ i hi, I i → (P i hi ↔ C i hi)) (hnext : ∀ i hi, I i → C i hi → I (i + 1)) :
    (∀ i hi, P i hi) ↔ ∀ i hi, C i hi := by
  constructor
  · intro hP
    have hinv : ∀ i, i ≤ n → I i := by
      intro i
      induction i with
      | zero => exact fun _ => hinit
      | succ i ih =>
        intro hi
        have hbefore := ih (by omega)
        exact hnext i hi hbefore ((hstep i hi hbefore).mp (hP i hi))
    exact fun i hi => (hstep i hi (hinv i hi.le)).mp (hP i hi)
  · intro hC
    have hinv : ∀ i, i ≤ n → I i := by
      intro i
      induction i with
      | zero => exact fun _ => hinit
      | succ i ih => exact fun hi => hnext i hi (ih (by omega)) (hC i hi)
    exact fun i hi => (hstep i hi (hinv i hi.le)).mpr (hC i hi)

theorem List.foldl_take_succ {σ α : Type*} (f : σ → α → σ) (s : σ) {l : List α} {i : Nat}
    (hi : i < l.length) : (l.take (i + 1)).foldl f s = f ((l.take i).foldl f s) l[i] := by
  rw [List.take_succ_eq_append_getElem hi, List.foldl_append]
  rfl

namespace Relation

variable {σ : Type*} {r : σ → σ → Prop} {P Done : σ → Prop}

theorem ReflTransGen.invariant (hstep : ∀ {s s'}, P s → r s s' → P s') {s s' : σ}
    (hrun : ReflTransGen r s s') (hs : P s) : P s' := by
  induction hrun with
  | refl => exact hs
  | tail _ hlast ih => exact hstep ih hlast

/-- If from every state that is not done some step lowers the measure, then a run ends in a state
that is done. -/
theorem exists_run_of_measure (μ : σ → Nat) (hstep : ∀ {s s'}, P s → r s s' → P s')
    (hprogress : ∀ {s}, P s → ¬Done s → ∃ s', r s s' ∧ μ s' < μ s) {s : σ} (hs : P s) :
    ∃ s', ReflTransGen r s s' ∧ Done s' := by
  induction hμ : μ s using Nat.strong_induction_on generalizing s with
  | _ n ih =>
    by_cases hdone : Done s
    · exact ⟨s, .refl, hdone⟩
    · obtain ⟨s₁, hfirst, hlt⟩ := hprogress hs hdone
      obtain ⟨s', hrun, hdone'⟩ := ih (μ s₁) (hμ ▸ hlt) (hstep hs hfirst) rfl
      exact ⟨s', .head hfirst hrun, hdone'⟩

/-- Whatever steps are taken, a state that is done comes, and the system does not stop before. -/
inductive Inevitable (r : σ → σ → Prop) (Done : σ → Prop) : σ → Prop
  | done {s : σ} (h : Done s) : Inevitable r Done s
  | next {s : σ} (hmore : ∃ s', r s s') (hall : ∀ s', r s s' → Inevitable r Done s') :
      Inevitable r Done s

theorem inevitable_of_measure (μ : σ → Nat) (hmore : ∀ {s}, P s → ¬Done s → ∃ s', r s s')
    (hstep : ∀ {s s'}, P s → ¬Done s → r s s' → P s' ∧ μ s' < μ s) {s : σ} (hs : P s) :
    Inevitable r Done s := by
  induction hμ : μ s using Nat.strong_induction_on generalizing s with
  | _ n ih =>
    by_cases hdone : Done s
    · exact .done hdone
    · refine .next (hmore hs hdone) fun s' hfirst => ?_
      obtain ⟨hs', hlt⟩ := hstep hs hdone hfirst
      exact ih (μ s') (hμ ▸ hlt) hs' rfl

theorem not_inevitable (htrap : ∀ {s}, P s → ¬Done s)
    (hkeep : ∀ {s s'}, P s → r s s' → P s') {s : σ} (hs : P s) : ¬Inevitable r Done s := by
  intro h
  induction h with
  | done h => exact htrap hs h
  | next hmore _ ih =>
    obtain ⟨s', hfirst⟩ := hmore
    exact ih s' hfirst (hkeep hs hfirst)

end Relation
