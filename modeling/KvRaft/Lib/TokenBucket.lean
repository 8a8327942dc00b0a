import KvRaft.Lib.OrdMap
import Mathlib.Algebra.Order.Field.Basic
import Mathlib.Tactic.Linarith

/-! # Token buckets

A bucket gains tokens at a fixed rate, up to a limit, and a request takes its cost if the bucket has
that much. What a bucket holds is known at the moment of the last request it granted; a key without
a bucket stands for a full one. -/

namespace TokenBucket

variable {K : Type*} [Field K] [LinearOrder K]

/-- How fast a bucket fills, and how much it holds. -/
structure Limit (K : Type*) where
  rate : K
  burst : K
deriving DecidableEq

/-- The tokens at the moment `last`. -/
structure Bucket (K : Type*) where
  tokens : K
  last : K
deriving DecidableEq

def Bucket.full (l : Limit K) : Bucket K := ⟨l.burst, 0⟩

/-- The tokens at the moment `t`. A moment before the last one counts as that one. -/
def Bucket.advance (l : Limit K) (b : Bucket K) (t : K) : K :=
  min l.burst (b.tokens + l.rate * (t - min b.last t))

/-- Whether the bucket has the tokens asked for, and what is left. -/
def Bucket.allowN (l : Limit K) (b : Bucket K) (t cost : K) : Bool × Bucket K :=
  if cost ≤ l.burst ∧ 0 ≤ b.advance l t - cost then (true, ⟨b.advance l t - cost, t⟩)
  else (false, b)

/-- The buckets hold the same at every moment. -/
def Bucket.Same (l : Limit K) (b b' : Bucket K) : Prop := ∀ t, b.advance l t = b'.advance l t

theorem allowN_refused {l : Limit K} {b : Bucket K} {t cost : K}
    (h : (b.allowN l t cost).1 = false) :
    (b.allowN l t cost).2 = b := by
  unfold Bucket.allowN at h ⊢
  split_ifs at h ⊢
  rfl

theorem allowN_congr {l : Limit K} {b b' : Bucket K} (h : b.Same l b') (t cost : K) :
    (b.allowN l t cost).1 = (b'.allowN l t cost).1 ∧
      (b.allowN l t cost).2.Same l (b'.allowN l t cost).2 := by
  unfold Bucket.allowN
  rw [h t]
  split_ifs
  · exact ⟨rfl, fun _ => rfl⟩
  · exact ⟨rfl, h⟩

theorem advance_lt_of_granted [IsStrictOrderedRing K] {l : Limit K} {b : Bucket K} {t cost : K}
    (hcost : 0 < cost) (h : (b.allowN l t cost).1 = true) :
    (b.allowN l t cost).2.advance l t < b.advance l t := by
  unfold Bucket.allowN at h ⊢
  split_ifs at h ⊢
  refine (min_le_right _ _).trans_lt ?_
  rw [min_self, sub_self, mul_zero, add_zero]
  linarith

/-! ## One bucket for each key -/

variable {κ : Type*} [LinearOrder κ]

def tokens (l : Limit K) (m : OrdMap κ (Bucket K)) (k : κ) (t : K) : K :=
  ((m.get k).getD (.full l)).advance l t

/-- Asks the bucket of the key, which is made where there is none. -/
def charge (l : Limit K) (m : OrdMap κ (Bucket K)) (k : κ) (t cost : K) :
    Bool × OrdMap κ (Bucket K) :=
  let r := ((m.get k).getD (.full l)).allowN l t cost
  (r.1, m.insert k r.2)

/-- Under every key there is the same at every moment. -/
def SameTokens (l : Limit K) (m m' : OrdMap κ (Bucket K)) : Prop :=
  ∀ k t, tokens l m k t = tokens l m' k t

theorem SameTokens.refl (l : Limit K) (m : OrdMap κ (Bucket K)) : SameTokens l m m := fun _ _ => rfl

theorem tokens_charge (l : Limit K) (m : OrdMap κ (Bucket K)) (k k' : κ) (t t' cost : K) :
    tokens l (charge l m k t cost).2 k' t' =
      if k' = k then (((m.get k).getD (.full l)).allowN l t cost).2.advance l t'
      else tokens l m k' t' := by
  unfold tokens charge
  rw [OrdMap.get_insert]
  split_ifs <;> rfl

theorem same_of_refused {l : Limit K} {m : OrdMap κ (Bucket K)} {k : κ} {t cost : K}
    (h : (charge l m k t cost).1 = false) : SameTokens l (charge l m k t cost).2 m := by
  intro k' t'
  rw [tokens_charge]
  split_ifs with hk
  · subst hk
    rw [allowN_refused h]
    rfl
  · rfl

theorem charge_congr {l : Limit K} {m m' : OrdMap κ (Bucket K)} (h : SameTokens l m m') (k : κ)
    (t cost : K) :
    (charge l m k t cost).1 = (charge l m' k t cost).1 ∧
      SameTokens l (charge l m k t cost).2 (charge l m' k t cost).2 := by
  have hbucket := allowN_congr (h k) t cost
  refine ⟨hbucket.1, fun k' t' => ?_⟩
  rw [tokens_charge, tokens_charge]
  split_ifs
  · exact hbucket.2 t'
  · exact h k' t'

theorem tokens_lt_of_granted [IsStrictOrderedRing K] {l : Limit K} {m : OrdMap κ (Bucket K)} {k : κ}
    {t cost : K} (hcost : 0 < cost) (h : (charge l m k t cost).1 = true) :
    tokens l (charge l m k t cost).2 k t < tokens l m k t := by
  rw [tokens_charge, if_pos rfl]
  exact advance_lt_of_granted hcost h

end TokenBucket
