import KvRaft.Lib.Msgpack
import KvRaft.Lib.Scan
import KvRaft.Web.Fsm

/-! # The msgpack reader of the browser learner (`web-app/src/msgpack.rs`)

The reader's operations are translated first. What `take`, `peek` and `read_raw` have and
combinations keep (`Closed`), all of them have; so every one of them is `Streams`: more input
changes no result but `UnexpectedEof`. Each then reads the forms of its kind (`gives_readUint`,
`gives_readInt`, `gives_readRaw`, `gives_readBytesField`, `gives_readBool`, `gives_readMapHeader`),
unless the position would not fit `usize`, which panics. -/

namespace KvRaft.Web

open Bytes Msgpack Scan

/-! ## The reader -/

inductive MsgpackError
  | unexpectedEof
  | badTag (b : UInt8)
deriving DecidableEq, Repr

/-- A function of a `Reader`, which is a buffer and a position in it. -/
abbrev Reader := Scan UInt8 (Fault MsgpackError)

namespace Reader

def peek : Reader UInt8 := fun buf pos =>
  match buf[pos]? with
  | none => .error (.err .unexpectedEof)
  | some b => .ok (b, pos)

def isNil : Reader Bool := do return (← peek) = 0xc0

def badTag {α : Type} (b : UInt8) : Reader α := throw (.err (.badTag b))

section

variable [Target]

def take (n : Nat) : Reader Bytes := fun buf pos =>
  if buf.length < usizeAdd pos n then .error (.err .unexpectedEof)
  else (slice buf pos (usizeAdd pos n)).map fun s => (s, usizeAdd pos n)

def byte : Reader UInt8 := do return (← take 1).headD 0

def readNil : Reader Unit := do
  let b ← byte
  if b = 0xc0 then return () else badTag b

def readBool : Reader Bool := do
  let b ← byte
  if b = 0xc3 then return true
  else if b = 0xc2 then return false
  else badTag b

/-- `read_map_header` and `read_array_header`, which differ in their tags. -/
def readHeader (fix wide16 wide32 : UInt8) : Reader Nat := do
  let b ← byte
  if fix ≤ b ∧ b ≤ fix + 0x0f then return (b &&& 0x0f).toNat
  else if b = wide16 then return beNat (← take 2)
  else if b = wide32 then return beNat (← take 4)
  else badTag b

def readMapHeader : Reader Nat := readHeader 0x80 0xde 0xdf

def readArrayHeader : Reader Nat := readHeader 0x90 0xdc 0xdd

def rawLength : Reader Nat := do
  let b ← byte
  if 0xa0 ≤ b ∧ b ≤ 0xbf then return (b &&& 0x1f).toNat
  else if b = 0xd9 then return (← byte).toNat
  else if b = 0xda then return beNat (← take 2)
  else if b = 0xdb then return beNat (← take 4)
  else badTag b

def readRaw : Reader Bytes := do take (← rawLength)

def readBytesField : Reader (Option Bytes) := do
  if ← isNil then do
    readNil
    return none
  else return some (← readRaw)

def readUint : Reader UInt64 := do
  let b ← byte
  if b ≤ 0x7f then return .ofNat b.toNat
  else if b = 0xcc then return .ofNat (← byte).toNat
  else if b = 0xcd then return .ofNat (beNat (← take 2))
  else if b = 0xce then return .ofNat (beNat (← take 4))
  else if b = 0xcf then return .ofNat (beNat (← take 8))
  else badTag b

def readInt : Reader Int64 := do
  let b ← byte
  if b ≤ 0x7f then return .ofInt b.toNat
  else if 0xe0 ≤ b then return .ofInt (beInt [b])
  else if b = 0xcc then return .ofInt (← byte).toNat
  else if b = 0xcd then return .ofInt (beNat (← take 2))
  else if b = 0xce then return .ofInt (beNat (← take 4))
  else if b = 0xcf then return .ofInt (beNat (← take 8))
  else if b = 0xd0 then return .ofInt (beInt [← byte])
  else if b = 0xd1 then return .ofInt (beInt (← take 2))
  else if b = 0xd2 then return .ofInt (beInt (← take 4))
  else if b = 0xd3 then return .ofInt (beInt (← take 8))
  else badTag b

/-- `skip_value` after the peek, with the calls for what stands inside the value. -/
def skipTagged (skip : Reader Unit) (b : UInt8) : Reader Unit :=
  if b = 0xc0 ∨ b = 0xc2 ∨ b = 0xc3 then discard byte
  else if b ≤ 0x7f ∨ 0xe0 ≤ b then discard byte
  else if b = 0xcc ∨ b = 0xd0 then discard (take 2)
  else if b = 0xcd ∨ b = 0xd1 then discard (take 3)
  else if b = 0xce ∨ b = 0xd2 then discard (take 5)
  else if b = 0xcf ∨ b = 0xd3 then discard (take 9)
  else if 0xa0 ≤ b ∧ b ≤ 0xbf ∨ b = 0xd9 ∨ b = 0xda ∨ b = 0xdb then discard readRaw
  else if 0x90 ≤ b ∧ b ≤ 0x9f ∨ b = 0xdc ∨ b = 0xdd then do
    let n ← readArrayHeader
    iterate (fun _ => skip) n ()
  else if 0x80 ≤ b ∧ b ≤ 0x8f ∨ b = 0xde ∨ b = 0xdf then do
    let n ← readMapHeader
    iterate (fun _ => do skip; skip) n ()
  else badTag b

/-- `skip_value` with calls nested at most so deep. -/
def skipValueWithin : Nat → Reader Unit
  | 0 => throw (.err .unexpectedEof)
  | depth + 1 => do skipTagged (skipValueWithin depth) (← peek)

/-- Each level of nesting takes a byte, and no buffer has more of them than `usize` counts. -/
def skipValue : Reader Unit := skipValueWithin (2 ^ Target.pointerWidth)

end

/-! ## What the operations have in common -/

/-- A property of reading a few bytes that combinations of readers keep. -/
structure Combines [Target] (C : ∀ {α : Type}, Reader α → Prop) : Prop where
  pure : ∀ {α : Type} (a : α), C (pure a : Reader α)
  fail : ∀ {α : Type} (e : MsgpackError), C (throw (.err e) : Reader α)
  bind : ∀ {α β : Type} {p : Reader α} {f : α → Reader β}, C p → (∀ a, C (f a)) → C (p >>= f)
  take : ∀ {n : Nat}, n < 10 → C (take n)
  peek : C peek

/-- Such a property that strings of any length have, too. -/
structure Closed [Target] (C : ∀ {α : Type}, Reader α → Prop) : Prop extends Combines C where
  readRaw : C readRaw

section

variable [Target] {α β σ : Type} {C : ∀ {α : Type}, Reader α → Prop}

namespace Combines

theorem ite (_ : Combines C) {c : Prop} [Decidable c] {p q : Reader α} (hp : C p) (hq : C q) :
    C (if c then p else q) := by
  split
  · exact hp
  · exact hq

variable (hC : Combines C)

include hC

theorem map {p : Reader α} (hp : C p) (g : α → β) : C (p >>= fun a => Pure.pure (g a)) :=
  hC.bind hp fun _ => hC.pure _

theorem iterate {f : σ → Reader σ} (hf : ∀ s, C (f s)) : ∀ n s, C (Scan.iterate f n s)
  | 0, s => hC.pure s
  | n + 1, s => hC.bind (hf s) fun s' => iterate hf n s'

theorem badTag (b : UInt8) : C (badTag b : Reader α) := hC.fail _

theorem byte : C byte := hC.map (hC.take (by decide)) _

theorem readNil : C readNil := hC.bind hC.byte fun _ => hC.ite (hC.pure _) (hC.badTag _)

theorem isNil : C isNil := hC.map hC.peek _

theorem readBool : C readBool :=
  hC.bind hC.byte fun _ => hC.ite (hC.pure _) (hC.ite (hC.pure _) (hC.badTag _))

theorem number {n : Nat} (hn : n < 10) (g : Bytes → β) :
    C (Reader.take n >>= fun s => Pure.pure (g s)) :=
  hC.map (hC.take hn) g

theorem readHeader (fix wide16 wide32 : UInt8) : C (readHeader fix wide16 wide32) :=
  hC.bind hC.byte fun _ => hC.ite (hC.pure _) <| hC.ite (hC.number (by decide) _) <|
    hC.ite (hC.number (by decide) _) (hC.badTag _)

theorem rawLength : C rawLength :=
  hC.bind hC.byte fun _ => hC.ite (hC.pure _) <| hC.ite (hC.map hC.byte _) <|
    hC.ite (hC.number (by decide) _) <| hC.ite (hC.number (by decide) _) (hC.badTag _)

theorem readUint : C readUint :=
  hC.bind hC.byte fun _ => hC.ite (hC.pure _) <| hC.ite (hC.map hC.byte _) <|
    hC.ite (hC.number (by decide) _) <| hC.ite (hC.number (by decide) _) <|
    hC.ite (hC.number (by decide) _) (hC.badTag _)

theorem readInt : C readInt :=
  hC.bind hC.byte fun _ => hC.ite (hC.pure _) <| hC.ite (hC.pure _) <|
    hC.ite (hC.map hC.byte _) <| hC.ite (hC.number (by decide) _) <|
    hC.ite (hC.number (by decide) _) <| hC.ite (hC.number (by decide) _) <|
    hC.ite (hC.map hC.byte _) <| hC.ite (hC.number (by decide) _) <|
    hC.ite (hC.number (by decide) _) <| hC.ite (hC.number (by decide) _) (hC.badTag _)

end Combines

namespace Closed

variable (hC : Closed C)

include hC

theorem readBytesField : C readBytesField :=
  hC.bind hC.isNil fun _ => hC.ite (hC.bind hC.readNil fun _ => hC.pure _) (hC.map hC.readRaw _)

theorem skipValueWithin : ∀ depth, C (skipValueWithin depth)
  | 0 => hC.fail _
  | depth + 1 => by
    have ih := skipValueWithin depth
    have hbyte := hC.map hC.byte fun _ => ()
    have htake {n : Nat} (hn : n < 10) := hC.number hn fun _ => ()
    exact hC.bind hC.peek fun _ => hC.ite hbyte <| hC.ite hbyte <| hC.ite (htake (by decide)) <|
      hC.ite (htake (by decide)) <| hC.ite (htake (by decide)) <| hC.ite (htake (by decide)) <|
      hC.ite (hC.map hC.readRaw fun _ => ()) <|
      hC.ite (hC.bind (hC.readHeader ..) fun n => hC.iterate (fun _ => ih) n ()) <|
      hC.ite (hC.bind (hC.readHeader ..) fun n => hC.iterate (fun _ => hC.bind ih fun _ => ih) n ())
        (hC.badTag _)

theorem skipValue : C skipValue := hC.skipValueWithin _

end Closed

end

/-! ## Settled results -/

section

variable {α : Type}

/-- More input changes no result but `UnexpectedEof`. -/
abbrev Streams (p : Reader α) : Prop := Streaming (.err .unexpectedEof) p

theorem streams_peek : Streams peek where
  ok {buf pos q a} hpos h := by
    rw [peek] at h
    rcases hb : buf[pos]? with _ | b
    · rw [hb] at h
      cases h
    · rw [hb] at h
      cases h
      refine ⟨hpos, fun more => ?_⟩
      rw [peek, List.getElem?_append_left (List.getElem?_eq_some_iff.mp hb).1, hb]
  error {buf pos e} hpos h he := by
    rw [peek] at h
    rcases hb : buf[pos]? with _ | b
    · rw [hb] at h
      cases h
      exact absurd rfl he
    · rw [hb] at h
      cases h

variable [Target]

theorem streams_take (n : Nat) : Streams (take n) where
  ok {buf pos q a} hpos h := by
    rw [take] at h
    split_ifs at h with hl
    rw [slice] at h
    split_ifs at h with hs
    · cases h
      refine ⟨not_lt.mp hl, fun more => ?_⟩
      rw [take, slice, if_neg (by rw [List.length_append]; omega),
        if_pos ⟨hs.1, by rw [List.length_append]; omega⟩, List.take_append_of_le_length hs.2]
      rfl
    · cases h
  error {buf pos e} hpos h he more := by
    rw [take] at h
    split_ifs at h with hl
    · cases h
      exact absurd rfl he
    · rw [slice] at h
      split_ifs at h with hs
      · cases h
      -- the end does not wrap back behind the start on a longer buffer either
      have hs' : ¬ (pos ≤ usizeAdd pos n ∧ usizeAdd pos n ≤ (buf ++ more).length) :=
        fun hc => hs ⟨hc.1, not_lt.mp hl⟩
      rw [take, if_neg (by rw [List.length_append]; omega), slice, if_neg hs']
      exact h

theorem combines_streams : Combines @Streams where
  pure := .pure
  fail _ := .throw _
  bind := .bind
  take _ := streams_take _
  peek := streams_peek

theorem closed_streams : Closed @Streams where
  toCombines := combines_streams
  readRaw := combines_streams.rawLength.bind streams_take

end

/-! ## Reading forms -/

section

theorem peek_at (pre : Bytes) (b : UInt8) (w more : Bytes) :
    peek (pre ++ b :: w ++ more) pre.length = .ok (b, pre.length) := by
  rw [peek, List.append_assoc, List.getElem?_append_right (le_refl _)]
  simp

variable {n : Nat} {b : UInt8}

theorem toNat_ofNat_byte (h : n < 256) : (UInt8.ofNat n).toNat = n := UInt8.toNat_ofNat_of_lt' h

theorem ofNat_le_iff (hn : n < 256) : UInt8.ofNat n ≤ b ↔ n ≤ b.toNat := by
  rw [UInt8.le_iff_toNat_le, toNat_ofNat_byte hn]

theorem le_ofNat_iff (hn : n < 256) : b ≤ UInt8.ofNat n ↔ b.toNat ≤ n := by
  rw [UInt8.le_iff_toNat_le, toNat_ofNat_byte hn]

variable [Target] {α β : Type} {w : Bytes} {a : α}

/-- What is read for `w`, as long as the position fits `usize`. -/
abbrev Gives (p : Reader α) (w : Bytes) (a : α) : Prop :=
  Scan.Reads (2 ^ Target.pointerWidth) .panic p w a

theorem run_of_gives {p : Reader α} (h : Gives p w a) (pre more : Bytes)
    (hfit : (pre ++ w).length < 2 ^ Target.pointerWidth) :
    p (pre ++ w ++ more) pre.length = .ok (a, (pre ++ w).length) := by
  have hpre : pre.length < 2 ^ Target.pointerWidth := by
    rw [List.length_append] at hfit
    omega
  rw [h pre more hpre, if_pos hfit]

/-- Nothing is read for `w`. -/
abbrev Refuses (p : Reader α) (w : Bytes) : Prop := Scan.Refuses (2 ^ Target.pointerWidth) p w

theorem gives_take (b : Bytes) (hb : b.length < 2 ^ 32) : Gives (take b.length) b b := by
  intro pre more hpre
  have hb : b.length < 2 ^ Target.pointerWidth := hb.trans_le Target.le_two_pow
  have hlen : (pre ++ b).length = pre.length + b.length := List.length_append
  rw [take, usizeAdd]
  split_ifs with hl hfit hfit
  · rw [List.length_append, Nat.mod_eq_of_lt (by omega)] at hl
    omega
  · -- the sum wraps, to an end that is within the buffer
    rw [List.length_append, Nat.mod_eq_sub_mod (by omega), Nat.mod_eq_of_lt (by omega)] at hl
    omega
  · rw [Nat.mod_eq_of_lt (by omega), slice, if_pos (by rw [List.length_append]; omega), ← hlen,
      List.take_left, List.drop_left]
    rfl
  · rw [Nat.mod_eq_sub_mod (by omega), Nat.mod_eq_of_lt (by omega), slice, if_neg (by omega)]
    rfl

theorem gives_byte (b : UInt8) : Gives byte [b] b := (gives_take [b] (by norm_num)).map _

theorem gives_byte_bind {f : UInt8 → Reader α} (h : Gives (f b) w a) :
    Gives (byte >>= f) (b :: w) a := (gives_byte b).bind h

theorem gives_be {k : Nat} (hk : k < 2 ^ 32) (h : n < 256 ^ k) (g : Nat → α) :
    Gives (take k >>= fun s => pure (g (beNat s))) (beBytes k n) (g n) := by
  have hr := gives_take (beBytes k n) (by rwa [length_beBytes])
  rw [length_beBytes] at hr
  have hm := hr.map fun s => g (beNat s)
  rwa [beNat_beBytes h] at hm

theorem gives_peek_bind {f : UInt8 → Reader α} (h : Gives (f b) (b :: w) a) :
    Gives (peek >>= f) (b :: w) a := by
  intro pre more hpre
  rw [bind_of_ok (peek_at pre b w more), h pre more hpre]

theorem gives_byte_nat (h : n < 256) (g : Nat → α) :
    Gives (byte >>= fun b => pure (g b.toNat)) [UInt8.ofNat n] (g n) := by
  have hm := (gives_byte (UInt8.ofNat n)).map fun b => g b.toNat
  rwa [toNat_ofNat_byte h] at hm

theorem gives_beInt {k : Nat} {i : Int} (hk : k < 2 ^ 32) (h : -(256 ^ k) ≤ 2 * i ∧ 2 * i < 256 ^ k)
    (g : Int → α) :
    Gives (take k >>= fun s => pure (g (beInt s))) (beBytes k (i % 256 ^ k).toNat) (g i) := by
  have hr := gives_take (beBytes k (i % 256 ^ k).toNat) (by rwa [length_beBytes])
  rw [length_beBytes] at hr
  have hm := hr.map fun s => g (beInt s)
  rwa [beInt_beBytes h] at hm

theorem gives_readUint {v : UInt64} (h : UintForm v.toNat w) : Gives readUint w v := by
  have hv : UInt64.ofNat v.toNat = v := UInt64.ofNat_toNat
  rw [← hv]
  cases h with
  | fix h =>
    have hle : UInt8.ofNat v.toNat ≤ 0x7f := (ofNat_le_iff (by omega)).mpr (Nat.le_of_lt_succ h)
    refine gives_byte_bind ?_
    rw [if_pos hle, toNat_ofNat_byte (by omega)]
    exact .pure _
  | wide htag h =>
    simp only [mem_tags, mem_tag] at htag
    obtain ⟨rfl, rfl⟩ | ⟨rfl, rfl⟩ | ⟨rfl, rfl⟩ | ⟨rfl, rfl⟩ := htag <;> refine gives_byte_bind ?_
    · exact gives_byte_nat h UInt64.ofNat
    · exact gives_be (by decide) h UInt64.ofNat
    · exact gives_be (by decide) h UInt64.ofNat
    · exact gives_be (by decide) h UInt64.ofNat

theorem gives_readInt {v : Int64} (h : SintForm v.toInt w) : Gives readInt w v := by
  have hv : Int64.ofInt v.toInt = v := Int64.ofInt_toInt v
  rw [← hv]
  generalize v.toInt = i at h
  cases h with
  | unsigned hi h =>
    subst hi
    cases h with
    | fix h =>
      have hle : UInt8.ofNat _ ≤ 0x7f := (ofNat_le_iff (by omega)).mpr (Nat.le_of_lt_succ h)
      refine gives_byte_bind ?_
      rw [if_pos hle, toNat_ofNat_byte (by omega)]
      exact .pure _
    | wide htag h =>
      simp only [mem_tags, mem_tag] at htag
      obtain ⟨rfl, rfl⟩ | ⟨rfl, rfl⟩ | ⟨rfl, rfl⟩ | ⟨rfl, rfl⟩ := htag <;> refine gives_byte_bind ?_
      · exact gives_byte_nat h fun n => Int64.ofInt n
      · exact gives_be (by decide) h fun n => Int64.ofInt n
      · exact gives_be (by decide) h fun n => Int64.ofInt n
      · exact gives_be (by decide) h fun n => Int64.ofInt n
  | fix h =>
    have hb : beInt [UInt8.ofNat (i + 256).toNat] = i := by
      have hmod : i + 256 = i % 256 := by omega
      rw [hmod]
      exact beInt_byte (by omega)
    have hlt : ¬ UInt8.ofNat (i + 256).toNat ≤ 0x7f := by
      rw [ofNat_le_iff (by omega)]
      show ¬ _ ≤ 127
      omega
    have hge : 0xe0 ≤ UInt8.ofNat (i + 256).toNat := by
      rw [le_ofNat_iff (by omega)]
      show 224 ≤ _
      omega
    refine gives_byte_bind ?_
    rw [if_neg hlt, if_pos hge, hb]
    exact .pure _
  | wide htag h =>
    simp only [mem_tags, mem_tag] at htag
    obtain ⟨rfl, rfl⟩ | ⟨rfl, rfl⟩ | ⟨rfl, rfl⟩ | ⟨rfl, rfl⟩ := htag <;> refine gives_byte_bind ?_
    · have hm := (gives_byte (UInt8.ofNat (i % 256).toNat)).map fun b => Int64.ofInt (beInt [b])
      rwa [beInt_byte h] at hm
    · exact gives_beInt (by decide) h Int64.ofInt
    · exact gives_beInt (by decide) h Int64.ofInt
    · exact gives_beInt (by decide) h Int64.ofInt

theorem gives_readRaw {b : Bytes} (h : RawForm b w) : Gives readRaw w b := by
  cases h with
  | fix h =>
    have hlength : Gives rawLength [UInt8.ofNat (0xa0 + b.length)] b.length := by
      refine gives_byte_bind ?_
      generalize b.length = n at h
      interval_cases n <;> exact .pure _
    exact hlength.bind (gives_take b (by omega))
  | wide htag h =>
    simp only [mem_tags, mem_tag] at htag
    obtain ⟨rfl, rfl⟩ | ⟨rfl, rfl⟩ | ⟨rfl, rfl⟩ := htag
    · have hlength : Gives rawLength (0xd9 :: beBytes 1 b.length) b.length :=
        gives_byte_bind (gives_byte_nat h id)
      exact hlength.bind (gives_take b (by omega))
    · have hlength : Gives rawLength (0xda :: beBytes 2 b.length) b.length :=
        gives_byte_bind (gives_be (by decide) h id)
      exact hlength.bind (gives_take b (by omega))
    · have hlength : Gives rawLength (0xdb :: beBytes 4 b.length) b.length :=
        gives_byte_bind (gives_be (by decide) h id)
      exact hlength.bind (gives_take b (by omega))

theorem gives_readBytesField {o : Option Bytes} (h : OptForm o w) : Gives readBytesField w o := by
  rw [readBytesField, isNil, bind_assoc]
  cases h with
  | nil =>
    have hnil : Gives readNil [0xc0] () := gives_byte_bind (.pure _)
    refine gives_peek_bind ?_
    rw [pure_bind]
    exact hnil.map fun _ => none
  | raw h =>
    obtain ⟨tag, rest, rfl, htag⟩ := h.head_ne_nil
    refine gives_peek_bind ?_
    rw [pure_bind, if_neg (by simpa using htag)]
    exact (gives_readRaw h).map some

theorem gives_readBool {b : Bool} (h : BoolForm b w) : Gives readBool w b := by
  cases h with
  | true => exact gives_byte_bind (.pure _)
  | false => exact gives_byte_bind (.pure _)

theorem gives_readMapHeader (h : MapHead n w) : Gives readMapHeader w n := by
  cases h with
  | fix h =>
    refine gives_byte_bind ?_
    interval_cases n <;> exact .pure _
  | wide htag h =>
    simp only [mem_tags, mem_tag] at htag
    obtain ⟨rfl, rfl⟩ | ⟨rfl, rfl⟩ := htag <;> exact gives_byte_bind (gives_be (by decide) h id)

theorem gives_readArrayHeader (h : ArrayHead n w) : Gives readArrayHeader w n := by
  cases h with
  | fix h =>
    refine gives_byte_bind ?_
    interval_cases n <;> exact .pure _
  | wide htag h =>
    simp only [mem_tags, mem_tag] at htag
    obtain ⟨rfl, rfl⟩ | ⟨rfl, rfl⟩ := htag <;> exact gives_byte_bind (gives_be (by decide) h id)

end

end Reader

end KvRaft.Web
