import KvRaft.Lib.Bytes

/-! # Lines, words and hex digits

`bufio.Scanner`, `strings.Fields` and `encoding/hex` of the standard library, over bytes. -/

namespace Encoding.Text

open Bytes

/-! ## Lines -/

def maxScanTokenSize : Nat := 65536

def dropCR (line : Bytes) : Bytes :=
  if line.getLast? = some 0x0D then line.dropLast else line

inductive ScanResult
  /-- The end of the stream, before any byte. -/
  | eof
  | tooLong
  | line (text : Bytes)
deriving DecidableEq, Repr

/-- The first `Scan` of a scanner on the stream. The buffer holds `maxScanTokenSize` bytes, the
line's end included. -/
def scan (stream : Bytes) : ScanResult :=
  if stream = [] then .eof
  else if 0x0A ∈ stream.take maxScanTokenSize then .line (dropCR (stream.takeWhile (· ≠ 0x0A)))
  else if maxScanTokenSize ≤ stream.length then .tooLong
  else .line (dropCR stream)

/-! ## Words -/

/-- The length of the white space character at the front, zero if there is none. -/
def spaceLen : Bytes → Nat
  | 0xC2 :: b :: _ => if b = 0x85 ∨ b = 0xA0 then 2 else 0
  | 0xE1 :: 0x9A :: 0x80 :: _ => 3
  | 0xE2 :: 0x80 :: c :: _ =>
    if (0x80 ≤ c ∧ c ≤ 0x8A) ∨ c = 0xA8 ∨ c = 0xA9 ∨ c = 0xAF then 3 else 0
  | 0xE2 :: 0x81 :: 0x9F :: _ => 3
  | 0xE3 :: 0x80 :: 0x80 :: _ => 3
  | c :: _ => if (0x09 ≤ c ∧ c ≤ 0x0D) ∨ c = 0x20 then 1 else 0
  | [] => 0

/-- The words, the first of which began with `word`. The first `skip` bytes belong to a white space
character already seen. -/
def fieldsFrom : Nat → Bytes → Bytes → List Bytes
  | _, word, [] => if word = [] then [] else [word]
  | skip + 1, word, _ :: b => fieldsFrom skip word b
  | 0, word, c :: b =>
    match spaceLen (c :: b) with
    | 0 => fieldsFrom 0 (word ++ [c]) b
    | n + 1 => if word = [] then fieldsFrom n [] b else word :: fieldsFrom n [] b

def fields (b : Bytes) : List Bytes := fieldsFrom 0 [] b

def unwords : List Bytes → Bytes
  | [] => []
  | [w] => w
  | w :: w' :: ws => w ++ 0x20 :: unwords (w' :: ws)

/-- `strings.Cut` at a byte: what is before its first occurrence and what is after it. -/
def cut (c : UInt8) : Bytes → Option (Bytes × Bytes)
  | [] => none
  | x :: b => if x = c then some ([], b) else (cut c b).map fun (l, r) => (x :: l, r)

def cutSuffix (suffix b : Bytes) : Option Bytes :=
  if suffix <:+ b then some (b.take (b.length - suffix.length)) else none

/-! ## Hex digits -/

def hexDigit (n : Nat) : UInt8 := if n < 10 then UInt8.ofNat (0x30 + n) else UInt8.ofNat (0x57 + n)

def hexEncode (b : Bytes) : Bytes :=
  b.flatMap fun c => [hexDigit (c.toNat / 16), hexDigit (c.toNat % 16)]

def fromHexChar (c : UInt8) : Option Nat :=
  if 0x30 ≤ c ∧ c ≤ 0x39 then some (c.toNat - 0x30)
  else if 0x61 ≤ c ∧ c ≤ 0x66 then some (c.toNat - 0x57)
  else if 0x41 ≤ c ∧ c ≤ 0x46 then some (c.toNat - 0x37)
  else none

def hexDecode : Bytes → Option Bytes
  | [] => some []
  | [_] => none
  | h :: l :: b =>
    match fromHexChar h, fromHexChar l with
    | some h, some l => (hexDecode b).map (UInt8.ofNat (h * 16 + l) :: ·)
    | _, _ => none

/-! ## Lengths -/

theorem length_takeWhile_lt {x : UInt8} :
    ∀ {l : Bytes} {k : Nat}, x ∈ l.take k → (l.takeWhile (· ≠ x)).length < k
  | _, 0, h => by simp at h
  | [], _ + 1, h => by simp at h
  | y :: l, k + 1, h => by
    by_cases hy : y = x
    · simp [hy]
    · have hmem : x ∈ l.take k := by
        rw [List.take_succ_cons, List.mem_cons] at h
        exact h.resolve_left fun e => hy e.symm
      have ih := length_takeWhile_lt hmem
      rw [List.takeWhile_cons_of_pos (by simpa using hy), List.length_cons]
      omega

theorem length_dropCR (line : Bytes) : (dropCR line).length ≤ line.length := by
  unfold dropCR
  split_ifs
  · rw [List.length_dropLast]
    omega
  · exact le_rfl

theorem length_scan {stream text : Bytes} (h : scan stream = .line text) :
    text.length < maxScanTokenSize := by
  unfold scan at h
  split_ifs at h with hnil hnl hlong <;> cases h
  · exact lt_of_le_of_lt (length_dropCR _) (length_takeWhile_lt hnl)
  · exact lt_of_le_of_lt (length_dropCR _) (not_le.mp hlong)

variable {w b : Bytes} {c : UInt8} {n : Nat}

theorem length_of_mem_fieldsFrom :
    ∀ {skip : Nat} {word b : Bytes}, w ∈ fieldsFrom skip word b → w.length ≤ word.length + b.length
  | _, word, [], h => by
    unfold fieldsFrom at h
    split_ifs at h
    · cases h
    · rw [List.mem_singleton.mp h]
      omega
  | skip + 1, word, c :: b, h => by
    have := length_of_mem_fieldsFrom (b := b) (by simpa [fieldsFrom] using h)
    rw [List.length_cons]
    omega
  | 0, word, c :: b, h => by
    unfold fieldsFrom at h
    rw [List.length_cons]
    split at h
    · have := length_of_mem_fieldsFrom h
      rw [List.length_append, List.length_singleton] at this
      omega
    · split_ifs at h
      · have := length_of_mem_fieldsFrom h
        rw [List.length_nil] at this
        omega
      · rcases List.mem_cons.mp h with rfl | h
        · omega
        · have := length_of_mem_fieldsFrom h
          rw [List.length_nil] at this
          omega

theorem length_of_mem_fields (h : w ∈ fields b) : w.length ≤ b.length := by
  have := length_of_mem_fieldsFrom h
  rwa [List.length_nil, Nat.zero_add] at this

theorem length_hexDecode : ∀ {b t : Bytes}, hexDecode b = some t → t.length ≤ b.length
  | [], _, h => by cases h; simp
  | [_], _, h => by cases h
  | h :: l :: b, t, ht => by
    unfold hexDecode at ht
    split at ht
    · obtain ⟨t', ht', rfl⟩ := Option.map_eq_some_iff.mp ht
      have := length_hexDecode ht'
      simp only [List.length_cons]
      omega
    · cases ht

/-! ## Visible characters -/

/-- A printable byte of ASCII other than the space. -/
def isVisible (c : UInt8) : Bool := 0x21 ≤ c && c ≤ 0x7E

/-- Among the characters of ASCII, only the blanks are white space. -/
theorem spaceLen_ascii (h : c < 0x80) (b : Bytes) :
    spaceLen (c :: b) = if (0x09 ≤ c ∧ c ≤ 0x0D) ∨ c = 0x20 then 1 else 0 := by
  have hlead : ∀ d : UInt8, 0x80 ≤ d → c ≠ d := by
    rintro d hd rfl
    exact absurd h (not_lt.mpr hd)
  unfold spaceLen
  split <;> rename_i heq
  · exact absurd (List.cons.inj heq).1 (hlead _ (by decide))
  · exact absurd (List.cons.inj heq).1 (hlead _ (by decide))
  · exact absurd (List.cons.inj heq).1 (hlead _ (by decide))
  · exact absurd (List.cons.inj heq).1 (hlead _ (by decide))
  · exact absurd (List.cons.inj heq).1 (hlead _ (by decide))
  · rw [← (List.cons.inj heq).1]
  · cases heq

theorem spaceLen_visible (h : isVisible c = true) (b : Bytes) : spaceLen (c :: b) = 0 := by
  simp only [isVisible, Bool.and_eq_true, decide_eq_true_eq] at h
  have hspace : ¬((0x09 ≤ c ∧ c ≤ 0x0D) ∨ c = 0x20) := by
    rintro (⟨-, htab⟩ | rfl)
    · exact absurd (h.1.trans htab) (by decide)
    · exact absurd h.1 (by decide)
  rw [spaceLen_ascii (lt_of_le_of_lt h.2 (by decide)), if_neg hspace]

/-! ## Words between spaces -/

/-- The bytes of a white space character decide about it: the first one and those that follow it,
none of which is ASCII. -/
theorem spaceLen_eq_succ (h : spaceLen b = n + 1) :
    ∃ c t rest, b = c :: (t ++ rest) ∧ t.length = n ∧ (∀ x ∈ t, 0x80 ≤ x) ∧
      ∀ rest', spaceLen (c :: (t ++ rest')) = n + 1 := by
  unfold spaceLen at h
  split at h
  · rename_i b rest
    split_ifs at h with hb
    cases h
    refine ⟨0xC2, [b], rest, rfl, rfl, ?_, fun rest' => ?_⟩
    · rintro x hx
      rw [List.mem_singleton.mp hx]
      rcases hb with rfl | rfl <;> decide
    · simp only [List.singleton_append, spaceLen, if_pos hb]
  · rename_i rest
    cases h
    exact ⟨0xE1, [0x9A, 0x80], rest, rfl, rfl, by simp, fun _ => rfl⟩
  · rename_i c rest
    split_ifs at h with hc
    cases h
    refine ⟨0xE2, [0x80, c], rest, rfl, rfl, ?_, fun rest' => ?_⟩
    · simp only [List.forall_mem_cons]
      refine ⟨by decide, ?_, by simp⟩
      rcases hc with hc | rfl | rfl | rfl
      · exact hc.1
      all_goals decide
    · simp only [List.cons_append, List.nil_append, spaceLen, if_pos hc]
  · rename_i rest
    cases h
    exact ⟨0xE2, [0x81, 0x9F], rest, rfl, rfl, by simp, fun _ => rfl⟩
  · rename_i rest
    cases h
    exact ⟨0xE3, [0x80, 0x80], rest, rfl, rfl, by simp, fun _ => rfl⟩
  · rename_i c rest h₁ h₂ h₃ h₄ h₅
    split_ifs at h with hc
    cases h
    have hascii : c < 0x80 := by
      rcases hc with hc | rfl
      · exact lt_of_le_of_lt hc.2 (by decide)
      · decide
    exact ⟨c, [], rest, rfl, rfl, by simp, fun rest' => (spaceLen_ascii hascii _).trans (if_pos hc)⟩
  · cases h

/-- A word of some text: no white space begins within it, in view of what follows it there. -/
def IsWord (w : Bytes) : Prop := w ≠ [] ∧ ∀ v, v <:+ w → v ≠ [] → ∃ b, spaceLen (v ++ b) = 0

theorem spaceLen_append_blank {v : Bytes} (hv : v ≠ []) (h : spaceLen (v ++ b) = 0) (rest : Bytes) :
    spaceLen (v ++ 0x20 :: rest) = 0 := by
  by_contra hspace
  obtain ⟨n, hn⟩ := Nat.exists_eq_succ_of_ne_zero hspace
  obtain ⟨c, t, tail, hbytes, -, hhigh, hsame⟩ := spaceLen_eq_succ hn
  obtain ⟨c', v, rfl⟩ := List.exists_cons_of_ne_nil hv
  obtain ⟨rfl, htail⟩ := List.cons.inj hbytes
  -- the blank is none of the bytes of the character, so the word has them all
  rcases List.append_eq_append_iff.mp htail with ⟨m, rfl, hm⟩ | ⟨m, rfl, -⟩
  · rcases m with _ | ⟨x, m⟩
    · rw [List.append_nil] at hsame
      rw [List.cons_append, hsame b] at h
      cases h
    · obtain ⟨rfl, -⟩ := List.cons.inj hm
      exact absurd (hhigh 0x20 (by simp)) (by decide)
  · rw [List.cons_append, List.append_assoc, hsame] at h
    cases h

theorem spaceLen_append_nil {v : Bytes} (h : spaceLen (v ++ b) = 0) : spaceLen v = 0 := by
  by_contra hspace
  obtain ⟨n, hn⟩ := Nat.exists_eq_succ_of_ne_zero hspace
  obtain ⟨c, t, tail, rfl, -, -, hsame⟩ := spaceLen_eq_succ hn
  rw [List.cons_append, List.append_assoc, hsame] at h
  cases h

theorem isWord_of_mem_fieldsFrom : ∀ {skip : Nat} {word b : Bytes},
    (∀ v, v <:+ word → v ≠ [] → skip = 0 ∧ spaceLen (v ++ b) = 0) →
      w ∈ fieldsFrom skip word b → IsWord w
  | skip, word, [], hword, h => by
    unfold fieldsFrom at h
    split_ifs at h with hnil
    · cases h
    · rw [List.mem_singleton.mp h]
      exact ⟨hnil, fun v hv hne => ⟨[], (hword v hv hne).2⟩⟩
  | skip + 1, word, c :: b, hword, h => by
    refine isWord_of_mem_fieldsFrom (fun v hv hne => ?_) (show w ∈ fieldsFrom skip word b by
      simpa [fieldsFrom] using h)
    exact absurd (hword v hv hne).1 (Nat.succ_ne_zero skip)
  | 0, word, c :: b, hword, h => by
    have hstart : ∀ {n : Nat}, w ∈ fieldsFrom n [] b → IsWord w := fun hmem =>
      isWord_of_mem_fieldsFrom (fun _ hv hne => absurd (List.suffix_nil.mp hv) hne) hmem
    unfold fieldsFrom at h
    split at h
    · -- the word goes on with this byte
      rename_i hspace
      refine isWord_of_mem_fieldsFrom (fun v hv hne => ⟨rfl, ?_⟩) h
      rcases List.suffix_concat_iff.mp hv with rfl | ⟨u, rfl, hu⟩
      · exact absurd rfl hne
      rw [List.append_assoc, List.singleton_append]
      rcases eq_or_ne u [] with rfl | hu'
      · exact hspace
      · exact (hword u hu hu').2
    · split_ifs at h with hnil
      · exact hstart h
      · rcases List.mem_cons.mp h with rfl | h
        · exact ⟨hnil, fun v hv hne => ⟨c :: b, (hword v hv hne).2⟩⟩
        · exact hstart h

theorem isWord_of_mem_fields (h : w ∈ fields b) : IsWord w :=
  isWord_of_mem_fieldsFrom (fun _ hv hne => absurd (List.suffix_nil.mp hv) hne) h

theorem isWord_of_visible (hne : w ≠ []) (h : ∀ c ∈ w, isVisible c = true) : IsWord w := by
  refine ⟨hne, fun _ hv hv' => ⟨[], ?_⟩⟩
  obtain ⟨c, _, rfl⟩ := List.exists_cons_of_ne_nil hv'
  exact spaceLen_visible (h c (hv.subset List.mem_cons_self)) _

theorem IsWord.not_blank (h : IsWord w) (hc : c ∈ w) :
    ¬((0x09 ≤ c ∧ c ≤ 0x0D) ∨ c = 0x20) := by
  intro hblank
  obtain ⟨u, v, rfl⟩ := List.append_of_mem hc
  obtain ⟨b, hb⟩ := h.2 (c :: v) (List.suffix_append ..) (by simp)
  have hascii : c < 0x80 := by
    rcases hblank with hc | rfl
    · exact lt_of_le_of_lt hc.2 (by decide)
    · decide
  rw [List.cons_append, spaceLen_ascii hascii, if_pos hblank] at hb
  cases hb

theorem IsWord.fieldsFrom_append (h : IsWord w)
    (hb : ∀ v b', v ≠ [] → spaceLen (v ++ b') = 0 → spaceLen (v ++ b) = 0) :
    fieldsFrom 0 [] (w ++ b) = fieldsFrom 0 w b := by
  have hgo : ∀ {v u : Bytes}, u ++ v = w → fieldsFrom 0 u (v ++ b) = fieldsFrom 0 w b := by
    intro v
    induction v with
    | nil =>
      intro u hu
      rw [← hu, List.append_nil, List.nil_append]
    | cons c v ih =>
      intro u hu
      obtain ⟨b', hb'⟩ := h.2 (c :: v) ⟨u, hu⟩ (by simp)
      have hspace := hb (c :: v) b' (by simp) hb'
      rw [List.cons_append] at hspace ⊢
      rw [fieldsFrom, hspace]
      exact ih (by rw [← hu, List.append_assoc, List.singleton_append])
  exact hgo (List.nil_append w)

theorem fields_unwords : ∀ {ws : List Bytes}, (∀ w ∈ ws, IsWord w) → fields (unwords ws) = ws
  | [], _ => rfl
  | [w], h => by
    have hw := h w List.mem_cons_self
    have hend := hw.fieldsFrom_append (b := []) fun v b' _ hb' => by
      rw [List.append_nil]
      exact spaceLen_append_nil hb'
    rw [List.append_nil] at hend
    rw [fields, unwords, hend, fieldsFrom, if_neg hw.1]
  | w :: w' :: ws, h => by
    obtain ⟨hw, hws⟩ := List.forall_mem_cons.mp h
    have ih : fieldsFrom 0 [] (unwords (w' :: ws)) = w' :: ws := fields_unwords hws
    have hblank : ∀ b, spaceLen (0x20 :: b) = 1 := fun _ => rfl
    rw [fields, unwords, hw.fieldsFrom_append fun v b' hv hb' => spaceLen_append_blank hv hb' _,
      fieldsFrom, hblank]
    dsimp only
    rw [if_neg hw.1, ih]

theorem mem_unwords : ∀ {ws : List Bytes}, c ∈ unwords ws → c = 0x20 ∨ ∃ w ∈ ws, c ∈ w
  | [], h => by cases h
  | [w], h => .inr ⟨w, List.mem_cons_self, h⟩
  | w :: w' :: ws, h => by
    rw [unwords, List.mem_append, List.mem_cons] at h
    rcases h with h | h | h
    · exact .inr ⟨w, List.mem_cons_self, h⟩
    · exact .inl h
    · rcases mem_unwords h with h | ⟨w, hw, hc⟩
      · exact .inl h
      · exact .inr ⟨w, List.mem_cons_of_mem _ hw, hc⟩

theorem getLast?_unwords : ∀ {ws : List Bytes}, (∀ w ∈ ws, IsWord w) →
    (unwords ws).getLast? = some c → ∃ w ∈ ws, c ∈ w
  | [], _, h => by cases h
  | [w], _, h => ⟨w, List.mem_cons_self, List.mem_of_getLast? h⟩
  | w :: w' :: ws, hws, h => by
    obtain ⟨-, hws⟩ := List.forall_mem_cons.mp hws
    have hne : unwords (w' :: ws) ≠ [] := by
      intro hnil
      have := fields_unwords hws
      rw [hnil] at this
      cases this
    rw [unwords, List.getLast?_append, List.getLast?_cons, List.getLast?_eq_some_getLast hne] at h
    obtain ⟨w, hw, hc⟩ := getLast?_unwords hws ((List.getLast?_eq_some_getLast hne).trans h)
    exact ⟨w, List.mem_cons_of_mem _ hw, hc⟩

/-! ## Hex digits, read back -/

theorem fromHexChar_hexDigit (h : n < 16) : fromHexChar (hexDigit n) = some n := by
  have hall : ∀ k : Fin 16, fromHexChar (hexDigit k) = some k.1 := by decide
  exact hall ⟨n, h⟩

theorem isVisible_hexDigit (h : n < 16) : isVisible (hexDigit n) = true := by
  have hall : ∀ k : Fin 16, isVisible (hexDigit k) = true := by decide
  exact hall ⟨n, h⟩

theorem hexEncode_cons (c : UInt8) (b : Bytes) :
    hexEncode (c :: b) = hexDigit (c.toNat / 16) :: hexDigit (c.toNat % 16) :: hexEncode b := rfl

theorem hexDecode_hexEncode : ∀ b : Bytes, hexDecode (hexEncode b) = some b
  | [] => rfl
  | c :: b => by
    have hc := c.toNat_lt
    rw [hexEncode_cons, hexDecode, fromHexChar_hexDigit (by omega), fromHexChar_hexDigit (by omega)]
    dsimp only
    rw [hexDecode_hexEncode b, Option.map_some, Nat.div_add_mod', UInt8.ofNat_toNat]

theorem isVisible_of_mem_hexEncode : ∀ {b : Bytes}, c ∈ hexEncode b → isVisible c = true
  | [], h => by cases h
  | x :: b, h => by
    have hx := x.toNat_lt
    rw [hexEncode_cons, List.mem_cons, List.mem_cons] at h
    rcases h with rfl | rfl | h
    · exact isVisible_hexDigit (by omega)
    · exact isVisible_hexDigit (by omega)
    · exact isVisible_of_mem_hexEncode h

/-! ## First lines -/

theorem scan_line {line : Bytes} (hlen : line.length < maxScanTokenSize) (h : ∀ c ∈ line, c ≠ 0x0A)
    (rest : Bytes) : scan (line ++ 0x0A :: rest) = .line (dropCR line) := by
  have hmem : (0x0A : UInt8) ∈ (line ++ 0x0A :: rest).take maxScanTokenSize := by
    rw [List.take_append, List.mem_append]
    refine .inr ?_
    obtain ⟨k, hk⟩ : ∃ k, maxScanTokenSize - line.length = k + 1 :=
      ⟨maxScanTokenSize - line.length - 1, by omega⟩
    rw [hk, List.take_succ_cons]
    exact List.mem_cons_self
  have htake : (line ++ 0x0A :: rest).takeWhile (· ≠ 0x0A) = line := by
    rw [List.takeWhile_append_of_pos (by simpa using h)]
    simp
  rw [scan, if_neg (by simp), if_pos hmem, htake]

theorem scan_unwords {ws : List Bytes} (hws : ∀ w ∈ ws, IsWord w)
    (hlen : (unwords ws).length < maxScanTokenSize)
    (rest : Bytes) : scan (unwords ws ++ 0x0A :: rest) = .line (unwords ws) := by
  have hcr : (unwords ws).getLast? ≠ some 0x0D := by
    intro hlast
    obtain ⟨w, hw, hc⟩ := getLast?_unwords hws hlast
    exact (hws w hw).not_blank hc (by decide)
  rw [scan_line hlen ?_ rest, dropCR, if_neg hcr]
  rintro c hc rfl
  rcases mem_unwords hc with h | ⟨w, hw, hc⟩
  · cases h
  · exact (hws w hw).not_blank hc (by decide)

theorem isPrefix_dropCR {p line : Bytes} (h : p <+: line) (hlast : p.getLast? ≠ some 0x0D) :
    p <+: dropCR line := by
  unfold dropCR
  split_ifs with hcr
  · obtain ⟨rest, rfl⟩ := h
    have hne : rest ≠ [] := by
      rintro rfl
      rw [List.append_nil] at hcr
      exact hlast hcr
    rw [List.dropLast_append_of_ne_nil hne]
    exact List.prefix_append ..
  · exact h

theorem isPrefix_of_scan {p stream text : Bytes} (h : p <+: stream) (hline : ∀ c ∈ p, c ≠ 0x0A)
    (hlast : p.getLast? ≠ some 0x0D) (hscan : scan stream = .line text) : p <+: text := by
  unfold scan at hscan
  split_ifs at hscan
  · cases hscan
    refine isPrefix_dropCR ?_ hlast
    obtain ⟨rest, rfl⟩ := h
    rw [List.takeWhile_append_of_pos (by simpa using hline)]
    exact List.prefix_append ..
  · cases hscan
    exact isPrefix_dropCR h hlast

end Encoding.Text
