import Mathlib.Data.List.Lex
import Mathlib.Tactic

/-! # Byte strings

Byte strings under the lexicographic order, fixed-width big-endian numbers and length-delimited
fields.
-/

abbrev Bytes := List UInt8

instance UInt8.instLinearOrder : LinearOrder UInt8 where
  le_refl := UInt8.le_refl
  le_trans _ _ _ := UInt8.le_trans
  le_antisymm _ _ := UInt8.le_antisymm
  le_total := UInt8.le_total
  lt_iff_le_not_ge a b := by
    rw [UInt8.lt_iff_toNat_lt, UInt8.le_iff_toNat_le, UInt8.le_iff_toNat_le]
    omega
  toDecidableLE := inferInstance
  toDecidableEq := inferInstance

instance UInt8.instLawfulBEq : LawfulBEq UInt8 := inferInstance

instance Bytes.instLawfulBEq : LawfulBEq Bytes := inferInstance

namespace Bytes

def ascii (s : String) : Bytes := s.toList.map fun c => UInt8.ofNat c.toNat

/-! ## Big-endian numbers -/

/-- `n` modulo `256 ^ w` in `w` bytes, most significant first. -/
def beBytes : Nat → Nat → Bytes
  | 0, _ => []
  | w + 1, n => beBytes w (n / 256) ++ [UInt8.ofNat n]

/-- The number that `b` denotes, most significant byte first. -/
def beNat (b : Bytes) : Nat := b.foldl (fun n x => n * 256 + x.toNat) 0

theorem beBytes_two (n : Nat) : beBytes 2 n = [UInt8.ofNat (n / 256), UInt8.ofNat n] := rfl

@[simp] theorem length_beBytes (w n : Nat) : (beBytes w n).length = w := by
  induction w generalizing n with
  | zero => rfl
  | succ w ih => simp [beBytes, ih]

theorem beNat_append_singleton (b : Bytes) (x : UInt8) :
    beNat (b ++ [x]) = beNat b * 256 + x.toNat := by
  simp [beNat]

theorem beNat_beBytes_mod (w n : Nat) : beNat (beBytes w n) = n % 256 ^ w := by
  induction w generalizing n with
  | zero => simp [beBytes, beNat, Nat.mod_one]
  | succ w ih =>
    have hb : (UInt8.ofNat n).toNat = n % 256 := UInt8.toNat_ofNat' ..
    rw [beBytes, beNat_append_singleton, ih, hb, Nat.pow_succ, Nat.mul_comm (256 ^ w), Nat.mod_mul]
    omega

variable {n w : Nat} {a b : Bytes}

theorem beNat_beBytes (h : n < 256 ^ w) : beNat (beBytes w n) = n := by
  rw [beNat_beBytes_mod, Nat.mod_eq_of_lt h]

theorem foldl_lt (b : Bytes) (n : Nat) :
    b.foldl (fun n x => n * 256 + x.toNat) n < (n + 1) * 256 ^ b.length := by
  induction b generalizing n with
  | nil => simp
  | cons x b ih =>
    have hx : n * 256 + x.toNat + 1 ≤ (n + 1) * 256 := by have := x.toNat_lt; omega
    calc (x :: b).foldl (fun n x => n * 256 + x.toNat) n
        < (n * 256 + x.toNat + 1) * 256 ^ b.length := ih _
      _ ≤ (n + 1) * 256 * 256 ^ b.length := Nat.mul_le_mul_right _ hx
      _ = (n + 1) * 256 ^ (x :: b).length := by rw [List.length_cons, Nat.pow_succ]; ring

theorem beNat_lt (b : Bytes) : beNat b < 256 ^ b.length := by simpa [beNat] using foldl_lt b 0

theorem foldl_lt_foldl_iff : ∀ {a b : Bytes} {m n : Nat}, a.length = b.length →
    (a.foldl (fun n x => n * 256 + x.toNat) m < b.foldl (fun n x => n * 256 + x.toNat) n ↔
      m < n ∨ m = n ∧ a < b)
  | [], [], _, _, _ => by simp
  | x :: a, y :: b, m, n, hl => by
    have hx := x.toNat_lt
    have hy := y.toNat_lt
    rw [List.foldl_cons, List.foldl_cons, foldl_lt_foldl_iff (Nat.succ.inj hl),
      List.cons_lt_cons_iff, UInt8.lt_iff_toNat_lt, ← UInt8.toNat_inj]
    by_cases hab : a < b
    · simp only [hab, and_true]
      omega
    · simp only [hab, and_false, or_false]
      omega

theorem beNat_lt_beNat_iff (hl : a.length = b.length) : beNat a < beNat b ↔ a < b := by
  simpa [beNat] using foldl_lt_foldl_iff (m := 0) (n := 0) hl

theorem beNat_inj (hl : a.length = b.length) (h : beNat a = beNat b) : a = b := by
  refine le_antisymm (not_lt.mp ?_) (not_lt.mp ?_)
  · rw [← beNat_lt_beNat_iff hl.symm]
    exact h.not_gt
  · rw [← beNat_lt_beNat_iff hl]
    exact h.not_lt

theorem beBytes_le_beBytes {m : Nat} (hmn : m ≤ n) (hn : n < 256 ^ w) :
    beBytes w m ≤ beBytes w n := by
  rw [← not_lt, ← beNat_lt_beNat_iff (by simp), beNat_beBytes hn, beNat_beBytes (hmn.trans_lt hn)]
  exact not_lt.mpr hmn

theorem beBytes_beNat (b : Bytes) : beBytes b.length (beNat b) = b :=
  beNat_inj (length_beBytes _ _) (beNat_beBytes (beNat_lt b))

/-! ## Length-delimited fields -/

def readNat (w : Nat) (b : Bytes) : Option (Nat × Bytes) :=
  if b.length < w then none else some (beNat (b.take w), b.drop w)

def readBytes (n : Nat) (b : Bytes) : Option (Bytes × Bytes) :=
  if b.length < n then none else some (b.take n, b.drop n)

theorem readNat_beBytes_append (h : n < 256 ^ w) (rest : Bytes) :
    readNat w (beBytes w n ++ rest) = some (n, rest) := by
  have ht : (beBytes w n ++ rest).take w = beBytes w n := List.take_left' (length_beBytes w n)
  have hd : (beBytes w n ++ rest).drop w = rest := List.drop_left' (length_beBytes w n)
  rw [readNat, if_neg (by simp), ht, hd, beNat_beBytes h]

theorem readBytes_append (b rest : Bytes) : readBytes b.length (b ++ rest) = some (b, rest) := by
  simp [readBytes]

theorem readNat_eq_some {rest : Bytes} (h : readNat w b = some (n, rest)) :
    n < 256 ^ w ∧ b = beBytes w n ++ rest := by
  unfold readNat at h
  split_ifs at h with hl
  cases h
  have hw : (b.take w).length = w := List.length_take_of_le (not_lt.mp hl)
  have hlt := beNat_lt (b.take w)
  have hb := beBytes_beNat (b.take w)
  rw [hw] at hlt hb
  exact ⟨hlt, by rw [hb, List.take_append_drop]⟩

theorem readBytes_eq_some {x rest : Bytes} (h : readBytes n b = some (x, rest)) :
    x.length = n ∧ b = x ++ rest := by
  unfold readBytes at h
  split_ifs at h with hl
  cases h
  exact ⟨List.length_take_of_le (by omega), (List.take_append_drop n b).symm⟩

theorem readNat_eq_none (h : b.length < w) : readNat w b = none := if_pos h

theorem readBytes_eq_none (h : b.length < n) : readBytes n b = none := if_pos h

theorem readNat_of_le (h : w ≤ b.length) : ∃ n rest, readNat w b = some (n, rest) :=
  ⟨_, _, if_neg (not_lt.mpr h)⟩

theorem readBytes_of_le (h : n ≤ b.length) : ∃ x rest, readBytes n b = some (x, rest) :=
  ⟨_, _, if_neg (not_lt.mpr h)⟩

theorem sized_append_inj {x y : Bytes} (ha : a.length < 256 ^ w) (hb : b.length < 256 ^ w)
    (h : beBytes w a.length ++ (a ++ x) = beBytes w b.length ++ (b ++ y)) : a = b ∧ x = y := by
  have hread := readNat_beBytes_append ha (a ++ x)
  rw [h, readNat_beBytes_append hb, Option.some.injEq, Prod.mk.injEq] at hread
  exact List.append_inj hread.2.symm hread.1.symm

end Bytes

/-! ## Common beginnings -/

namespace List

variable {α : Type*} [LinearOrder α]

theorem isPrefix_of_between : ∀ {P a b k : List α}, P <+: a → P <+: b → ¬k < a → ¬b < k → P <+: k
  | [], _, _, _, _, _, _, _ => nil_prefix
  | p :: P, _, _, k, ⟨a, ha⟩, ⟨b, hb⟩, hak, hkb => by
    subst ha hb
    cases k with
    | nil => exact absurd (nil_lt_cons _ _) hak
    | cons x k =>
      simp only [cons_append, cons_lt_cons_iff, not_or, not_and, not_lt] at hak hkb
      obtain rfl : p = x := le_antisymm hak.1 hkb.1
      obtain ⟨r, rfl⟩ := isPrefix_of_between ⟨a, rfl⟩ ⟨b, rfl⟩ (not_lt.mpr (hak.2 rfl))
        (not_lt.mpr (hkb.2 rfl))
      exact ⟨r, rfl⟩

theorem append_lt_append_left_iff (P : List α) {a b : List α} : P ++ a < P ++ b ↔ a < b := by
  induction P with
  | nil => rfl
  | cons x P ih => simpa [cons_lt_cons_iff] using ih

theorem not_append_lt_self (P a : List α) : ¬P ++ a < P := by
  have h := append_lt_append_left_iff P (a := a) (b := [])
  rw [append_nil] at h
  rw [h]
  exact not_lt_nil a

theorem append_lt_append_iff : ∀ {a b : List α}, a.length = b.length → ∀ {x y : List α},
    (a ++ x < b ++ y ↔ a < b ∨ a = b ∧ x < y)
  | [], [], _, _, _ => by simp
  | p :: a, q :: b, hl, x, y => by
    have ih := append_lt_append_iff (Nat.succ.inj hl) (x := x) (y := y)
    simp only [cons_append, cons_lt_cons_iff, ih, cons.injEq]
    tauto

theorem lt_append_iff_of_length_lt : ∀ {q a : List α}, q.length < a.length → ∀ {x : List α},
    (q < a ++ x ↔ q < a)
  | [], p :: a, _, x => by simp
  | y :: q, p :: a, hl, x => by
    rw [cons_append, cons_lt_cons_iff, cons_lt_cons_iff,
      lt_append_iff_of_length_lt (Nat.lt_of_succ_lt_succ hl)]

theorem append_le_append_right {a b : List α} (hl : a.length = b.length) (h : a ≤ b) (Q : List α) :
    a ++ Q ≤ b ++ Q := by
  rw [← not_lt, append_lt_append_iff hl.symm]
  rintro (hlt | ⟨-, hlt⟩)
  · exact absurd h hlt.not_ge
  · exact lt_irrefl Q hlt

end List
