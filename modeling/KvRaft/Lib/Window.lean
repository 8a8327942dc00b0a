import Mathlib.Data.List.DropRight
import Mathlib.Data.List.Perm.Basic
import Mathlib.Order.Lattice

/-! # The last elements of a list

A reader that keeps a window of bounded length while it goes through a list ends with the last
elements of the list. Whether these are also the greatest ones depends on the order of the list. -/

namespace List

variable {α β : Type*}

/-- One more element at the end; where these are too many, the first one goes. -/
def pushBounded (n : Nat) (w : List α) (a : α) : List α :=
  if (w ++ [a]).length > n then (w ++ [a]).tail else w ++ [a]

theorem foldl_pushBounded (n : Nat) (l : List α) : l.foldl (pushBounded n) [] = l.rtake n := by
  induction l using reverseRecOn with
  | nil => simp
  | append_singleton l a ih =>
    -- the window with `a` begins where the window before `a` did
    have hw : l.rtake n ++ [a] = (l ++ [a]).drop (l.length - n) := by
      rw [rtake, drop_append_of_le_length (Nat.sub_le ..)]
    rw [foldl_concat, ih, pushBounded, hw, length_drop, length_append, length_singleton, rtake,
      length_append, length_singleton]
    split_ifs with h
    · rw [tail_drop]
      congr 1
      omega
    · congr 1
      omega

section Top

variable [LinearOrder β]

/-- `top` has the `n` greatest elements of `l` by `f`, or all if there are fewer,
the greatest first. -/
def IsTop (n : Nat) (f : α → β) (l top : List α) : Prop :=
  ∃ rest, (top ++ rest).Perm l ∧ top.length = min n l.length ∧ top.Pairwise (fun a b => f b ≤ f a) ∧
    ∀ a ∈ top, ∀ b ∈ rest, f b ≤ f a

/-- The last `n` elements come in order, and none before them is greater. -/
def EndsInOrder (n : Nat) (f : α → β) (l : List α) : Prop :=
  (l.rtake n).Pairwise (fun a b => f a ≤ f b) ∧ ∀ a ∈ l.rdrop n, ∀ b ∈ l.rtake n, f a ≤ f b

instance instDecidableEndsInOrder (n : Nat) (f : α → β) (l : List α) :
    Decidable (EndsInOrder n f l) :=
  inferInstanceAs (Decidable (_ ∧ _))

theorem isTop_reverse_rtake (n : Nat) (f : α → β) (l : List α) :
    IsTop n f l (l.rtake n).reverse ↔ EndsInOrder n f l := by
  have hsplit : l.rdrop n ++ l.rtake n = l := take_append_drop _ _
  have hperm : ((l.rtake n).reverse ++ l.rdrop n).Perm l := by
    refine ((reverse_perm _).append_right _).trans (perm_append_comm.trans ?_)
    rw [hsplit]
  have hlen : (l.rtake n).reverse.length = min n l.length := by
    rw [length_reverse, rtake, length_drop]
    omega
  constructor
  · rintro ⟨rest, hrest, -, hsorted, hgreater⟩
    have hmem : ∀ a ∈ l.rdrop n, a ∈ rest :=
      fun a ha => ((perm_append_left_iff _).mp (hrest.trans hperm.symm)).mem_iff.mpr ha
    refine ⟨pairwise_reverse.mp hsorted, fun a ha b hb => ?_⟩
    exact hgreater b (mem_reverse.mpr hb) a (hmem a ha)
  · rintro ⟨hsorted, hgreater⟩
    refine ⟨l.rdrop n, hperm, hlen, pairwise_reverse.mpr hsorted, fun a ha b hb => ?_⟩
    exact hgreater b hb a (mem_reverse.mp ha)

theorem endsInOrder_map {γ : Type*} {n : Nat} {f : α → β} {g : γ → α} {l : List γ} :
    EndsInOrder n f (l.map g) ↔ EndsInOrder n (fun c => f (g c)) l := by
  simp only [EndsInOrder, rtake, rdrop, length_map, ← map_drop, ← map_take, pairwise_map, mem_map,
    forall_exists_index, and_imp, forall_apply_eq_imp_iff₂]

end Top

end List
