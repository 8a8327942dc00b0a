import KvRaft.Encoding.Json

/-! # UTF-8

Valid strings, as `utf8.Valid` and `str::from_utf8` see them, and the lossy reading
of any others. -/

namespace Encoding.Utf8

open Json

/-- Each step consumes a byte at least. -/
def validFrom : Nat → Bytes → Bool
  | _, [] => true
  | 0, _ :: _ => false
  | fuel + 1, c :: b =>
    if c < 0x80 then validFrom fuel b
    else
      match utf8Len (c :: b) with
      | some n => validFrom fuel ((c :: b).drop n)
      | none => false

def valid (b : Bytes) : Bool := validFrom b.length b

/-- Whether the second byte can follow the first one of a sequence of three or four. -/
def secondByte (a b : UInt8) : Bool :=
  if a == 0xE0 then 0xA0 ≤ b && b ≤ 0xBF
  else if a == 0xED then 0x80 ≤ b && b ≤ 0x9F
  else if a == 0xF0 then 0x90 ≤ b && b ≤ 0xBF
  else if a == 0xF4 then 0x80 ≤ b && b ≤ 0x8F
  else 0xE1 ≤ a && a ≤ 0xF3 && 0x80 ≤ b && b ≤ 0xBF

/-- How many bytes of an invalid sequence are replaced together. -/
def invalidLen : Bytes → Nat
  | a :: b :: c :: _ =>
    if secondByte a b then if 0xF0 ≤ a && 0x80 ≤ c && c ≤ 0xBF then 3 else 2 else 1
  | [a, b] => if secondByte a b then 2 else 1
  | _ => 1

def lossyFrom : Nat → Bytes → Bytes
  | _, [] => []
  | 0, _ :: _ => []
  | fuel + 1, c :: b =>
    if c < 0x80 then c :: lossyFrom fuel b
    else
      match utf8Len (c :: b) with
      | some n => (c :: b).take n ++ lossyFrom fuel ((c :: b).drop n)
      | none => encodeRune replacementChar ++ lossyFrom fuel ((c :: b).drop (invalidLen (c :: b)))

/-- `String::from_utf8_lossy`, as the bytes of the string. -/
def lossy (b : Bytes) : Bytes := lossyFrom b.length b

theorem lossyFrom_of_valid {fuel : Nat} {b : Bytes} (h : validFrom fuel b = true) :
    lossyFrom fuel b = b := by
  induction fuel generalizing b with
  | zero =>
    cases b with
    | nil => rfl
    | cons c b => cases h
  | succ fuel ih =>
    cases b with
    | nil => rfl
    | cons c b =>
      rw [validFrom] at h
      rw [lossyFrom]
      split_ifs at h ⊢ with hascii
      · rw [ih h]
      · rcases hn : utf8Len (c :: b) with _ | n <;> simp only [hn] at h ⊢
        · cases h
        · rw [ih h, List.take_append_drop]

theorem lossy_of_valid {b : Bytes} (h : valid b = true) : lossy b = b := lossyFrom_of_valid h

theorem valid_cons {c : UInt8} (hc : c < 0x80) {b : Bytes} (h : valid b = true) :
    valid (c :: b) = true := by
  rw [valid, List.length_cons, validFrom, if_pos hc]
  exact h

theorem utf8Len_ff (b : Bytes) : utf8Len (0xFF :: b) = none := by
  rcases b with _ | ⟨x, _ | ⟨y, _ | ⟨z, b⟩⟩⟩ <;> rfl

theorem head_ne_of_valid {b : Bytes} (h : valid b = true) : b.head? ≠ some 0xFF := by
  rcases b with _ | ⟨c, b⟩
  · simp
  · rw [List.head?_cons]
    rintro ⟨⟩
    rw [valid, List.length_cons, validFrom, if_neg (by decide), utf8Len_ff] at h
    cases h

end Encoding.Utf8
