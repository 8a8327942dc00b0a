import KvRaft.Web.Wire

/-! # Fields the browser learner does not know

A later version of raft may add fields to a request. The learner's loop skips the value of a name
that is not in its table, which makes it read the same request as long as `skip_value` knows the
value's kind. It knows neither floats nor binaries nor extensions. -/

namespace KvRaft.Web

open Bytes Msgpack Reader

/-! ## Skipping a value -/

namespace Reader

theorem skipValueWithin_succ (depth : Nat) : skipValueWithin (depth + 1) =
    peek >>= skipTagged (skipValueWithin depth) := rfl

section

variable {depth : Nat} {w : Bytes}

theorem gives_skip_byte {b : UInt8} (h : (b = 0xc0 ∨ b = 0xc2 ∨ b = 0xc3) ∨ b ≤ 0x7f ∨ 0xe0 ≤ b) :
    Gives (skipValueWithin (depth + 1)) [b] () := by
  have hbyte : Gives (discard byte) [b] () := (gives_byte b).map fun _ => ()
  rw [skipValueWithin_succ]
  refine gives_peek_bind ?_
  rw [skipTagged]
  by_cases hconst : b = 0xc0 ∨ b = 0xc2 ∨ b = 0xc3
  · rwa [if_pos hconst]
  · rwa [if_neg hconst, if_pos (h.resolve_left hconst)]

theorem gives_skip_tagged {tag : UInt8} {b : Bytes}
    (h : skipTagged (skipValueWithin depth) tag = discard (take (tag :: b).length))
    (hb : b.length < 16) :
    Gives (skipValueWithin (depth + 1)) (tag :: b) () := by
  rw [skipValueWithin_succ]
  refine gives_peek_bind ?_
  rw [h]
  exact (gives_take (tag :: b) (by rw [List.length_cons]; omega)).map fun _ => ()

theorem gives_skip_int {i : Int} (h : SintForm i w) : Gives (skipValueWithin (depth + 1)) w () := by
  cases h with
  | unsigned hi h =>
    cases h with
    | fix h =>
      exact gives_skip_byte (.inr (.inl ((ofNat_le_iff (by omega)).mpr (Nat.le_of_lt_succ h))))
    | wide htag h =>
      simp only [mem_tags, mem_tag] at htag
      obtain ⟨rfl, rfl⟩ | ⟨rfl, rfl⟩ | ⟨rfl, rfl⟩ | ⟨rfl, rfl⟩ := htag <;>
        exact gives_skip_tagged rfl (by rw [length_beBytes]; decide)
  | fix h =>
    refine gives_skip_byte (.inr (.inr ?_))
    rw [le_ofNat_iff (by omega)]
    show 224 ≤ _
    omega
  | wide htag h =>
    simp only [mem_tags, mem_tag] at htag
    obtain ⟨rfl, rfl⟩ | ⟨rfl, rfl⟩ | ⟨rfl, rfl⟩ | ⟨rfl, rfl⟩ := htag <;>
      exact gives_skip_tagged rfl (by rw [length_beBytes]; decide)

theorem skipTagged_raw (depth : Nat) {b : Bytes} (h : RawForm b w) :
    ∃ tag rest, w = tag :: rest ∧ skipTagged (skipValueWithin depth) tag = discard readRaw :=
  h.exists_tag (fun n hn => by interval_cases n <;> rfl) rfl rfl rfl

theorem skipTagged_array (depth : Nat) {n : Nat} (h : ArrayHead n w) :
    ∃ tag rest, w = tag :: rest ∧ skipTagged (skipValueWithin depth) tag =
      readArrayHeader >>= fun n => Scan.iterate (fun _ => skipValueWithin depth) n () :=
  h.exists_tag (fun n hn => by interval_cases n <;> rfl) rfl rfl

theorem skipTagged_map (depth : Nat) {n : Nat} (h : MapHead n w) :
    ∃ tag rest, w = tag :: rest ∧ skipTagged (skipValueWithin depth) tag =
      readMapHeader >>= fun n =>
        Scan.iterate (fun _ => do skipValueWithin depth; skipValueWithin depth) n () :=
  h.exists_tag (fun n hn => by interval_cases n <;> rfl) rfl rfl

theorem gives_skip_raw {b : Bytes} (h : RawForm b w) :
    Gives (skipValueWithin (depth + 1)) w () := by
  have hraw : Gives (discard readRaw) w () := (gives_readRaw h).map fun _ => ()
  obtain ⟨tag, rest, rfl, htag⟩ := skipTagged_raw depth h
  rw [skipValueWithin_succ]
  refine gives_peek_bind ?_
  rwa [htag]

/-- Reads over the word if it is plain, and refuses it otherwise. -/
def Skips : Bool → Reader Unit → Bytes → Prop
  | true, p, w => Gives p w ()
  | false, p, w => Refuses p w

namespace Skips

variable {a b : Bool} {v : Bytes}

theorem bind {p q : Reader Unit} (hp : Skips a p v) (hq : Skips b q w) :
    Skips (a && b) (p >>= fun _ => q) (v ++ w) := by
  cases a with
  | false => exact (Scan.Refuses.bind_left hp).append w
  | true =>
    cases b with
    | false => exact .bind_right hp hq
    | true => exact Scan.Reads.bind hp hq

theorem behind {p : Reader Nat} {f : Nat → Reader Unit} {n : Nat} (hp : Gives p v n)
    (hf : Skips b (f n) w) :
    Skips b (p >>= f) (v ++ w) := by
  cases b with
  | false => exact .bind_right hp hf
  | true => exact Scan.Reads.bind hp hf

theorem peek {f : UInt8 → Reader Unit} {tag : UInt8} (h : Skips b (f tag) (tag :: w)) :
    Skips b (Reader.peek >>= f) (tag :: w) := by
  cases b with
  | true => exact gives_peek_bind h
  | false =>
    intro pre more hpre
    rw [Scan.bind_of_ok (peek_at pre tag w more)]
    exact h pre more hpre

theorem badTag {tag : UInt8} (h : skipTagged (skipValueWithin depth) tag = badTag tag) :
    Skips false (skipValueWithin (depth + 1)) (tag :: w) := by
  refine peek ?_
  show Refuses (skipTagged (skipValueWithin depth) tag) _
  rw [h]
  exact fun _ _ _ => ⟨_, rfl⟩

theorem rounds {ι : Type} {round : Reader Unit} {word : ι → Bytes} {plain : ι → Bool} :
    ∀ {items : List ι}, (∀ i ∈ items, Skips (plain i) round (word i)) →
      Skips (items.all plain) (Scan.iterate (fun _ => round) items.length ()) (items.flatMap word)
  | [], _ => .pure ()
  | i :: _, h =>
    bind (h i List.mem_cons_self) (rounds fun j hj => h j (List.mem_cons_of_mem i hj))

theorem array {items : List (Bool × Bytes)} {head : Bytes} (hhead : ArrayHead items.length head)
    (hitems : ∀ i ∈ items, Skips i.1 (skipValueWithin depth) i.2) :
    Skips (items.all Prod.fst) (skipValueWithin (depth + 1)) (head ++ items.flatMap Prod.snd) := by
  have hbody := behind (f := fun n => Scan.iterate (fun _ => skipValueWithin depth) n ())
    (gives_readArrayHeader hhead) (rounds hitems)
  obtain ⟨tag, rest, rfl, htag⟩ := skipTagged_array depth hhead
  rw [← htag] at hbody
  exact peek hbody

theorem map {pairs : List ((Bool × Bytes) × (Bool × Bytes))} {head : Bytes}
    (hhead : MapHead pairs.length head)
    (hkeys : ∀ p ∈ pairs, Skips p.1.1 (skipValueWithin depth) p.1.2)
    (hvalues : ∀ p ∈ pairs, Skips p.2.1 (skipValueWithin depth) p.2.2) :
    Skips (pairs.all fun p => p.1.1 && p.2.1) (skipValueWithin (depth + 1))
      (head ++ pairs.flatMap fun p => p.1.2 ++ p.2.2) := by
  have hbody := behind
    (f := fun n => Scan.iterate (fun _ => do skipValueWithin depth; skipValueWithin depth) n ())
    (gives_readMapHeader hhead) (rounds fun p hp => (hkeys p hp).bind (hvalues p hp))
  obtain ⟨tag, rest, rfl, htag⟩ := skipTagged_map depth hhead
  rw [← htag] at hbody
  exact peek hbody

end Skips

theorem length_lt_of_mem {ι : Type} {items : List ι} (word : ι → Bytes) {head : Bytes}
    (hhead : 0 < head.length)
    {i : ι} (hi : i ∈ items) : (word i).length < (head ++ items.flatMap word).length := by
  have hle := List.le_sum_of_mem (List.mem_map_of_mem (f := fun i => (word i).length) hi)
  rw [List.length_append, List.length_flatMap]
  omega

/-- A value is skipped as a whole if it is plain, and refused otherwise. Each level of nesting is
behind a byte of its own, so the depth is never reached. -/
theorem skips_skipValueWithin {plain : Bool} (h : ValueForm plain w) (hdepth : w.length ≤ depth) :
    Skips plain (skipValueWithin depth) w := by
  induction depth generalizing plain w with
  | zero => exact absurd h.length_pos (not_lt.mpr hdepth)
  | succ depth ih =>
    cases h with
    | nil => exact gives_skip_byte (.inl (.inl rfl))
    | bool h =>
      cases h with
      | true => exact gives_skip_byte (.inl (.inr (.inr rfl)))
      | false => exact gives_skip_byte (.inl (.inr (.inl rfl)))
    | int h => exact gives_skip_int h
    | str h => exact gives_skip_raw h
    | float htag =>
      simp only [mem_tags, mem_tag] at htag
      obtain ⟨rfl, -⟩ | ⟨rfl, -⟩ := htag <;> exact .badTag rfl
    | bin htag | ext htag =>
      simp only [mem_tags, mem_tag] at htag
      obtain ⟨rfl, -⟩ | ⟨rfl, -⟩ | ⟨rfl, -⟩ := htag <;> exact .badTag rfl
    | fixext htag =>
      simp only [mem_tags, mem_tag] at htag
      obtain ⟨rfl, -⟩ | ⟨rfl, -⟩ | ⟨rfl, -⟩ | ⟨rfl, -⟩ | ⟨rfl, -⟩ := htag <;> exact .badTag rfl
    | array hhead hitems =>
      refine .array hhead fun i hi => ih (hitems i hi) ?_
      have hlt := length_lt_of_mem Prod.snd hhead.length_pos hi
      omega
    | @map pairs _ hhead hkeys hvalues =>
      have hle (p) (hp : p ∈ pairs) : p.1.2.length + p.2.2.length ≤ depth := by
        have hlt := length_lt_of_mem (fun p : (Bool × Bytes) × (Bool × Bytes) => p.1.2 ++ p.2.2)
          hhead.length_pos hp
        simp only [List.length_append] at hlt hdepth
        omega
      refine .map hhead (fun p hp => ih (hkeys p hp) ?_) fun p hp => ih (hvalues p hp) ?_
      · exact (Nat.le_add_right _ _).trans (hle p hp)
      · exact (Nat.le_add_left _ _).trans (hle p hp)

theorem skips_skipValue {plain : Bool} (h : ValueForm plain w) (hlen : w.length < 2 ^ 32) :
    Skips plain skipValue w := skips_skipValueWithin h hlen.le

end

end Reader

/-! ## Entries of a map -/

section

variable {σ : Type} {fields : Fields σ}

/-- A field whose name is not in the table, with a value of any kind. -/
structure Extra (fields : Fields σ) where
  name : Bytes
  key : Bytes
  value : Bytes
  plain : Bool
  unknown : fields.lookup name = none
  key_form : RawForm name key
  value_form : ValueForm plain value

abbrev Entry (fields : Fields σ) := Item σ ⊕ Extra fields

namespace Entry

def bytes : Entry fields → Bytes
  | .inl i => i.bytes
  | .inr x => x.key ++ x.value

def plain : Entry fields → Bool
  | .inl _ => true
  | .inr x => x.plain

def copy : Entry fields → σ → σ
  | .inl i, s => i.field.copy s
  | .inr _, s => s

theorem foldl_copy (entries : List (Entry fields)) (s : σ) :
    entries.foldl (fun s e => copy e s) s =
      (entries.filterMap Sum.getLeft?).foldl (fun s i => i.field.copy s) s := by
  rw [List.foldl_filterMap]
  congr 1
  funext s e
  cases e <;> rfl

variable {P : σ → Prop} {s : σ} {e : Entry fields}

theorem gives_readField (hknown : ∀ i, e = .inl i → Knows fields P i.field)
    (hlen : (bytes e).length < 2 ^ 32)
    (hplain : plain e = true) (hs : P s) :
    Gives (readField fields s) (bytes e) (copy e s) ∧ P (copy e s) := by
  cases e with
  | inl i => exact (hknown i rfl).gives_readField hs
  | inr x =>
    rw [bytes, List.length_append] at hlen
    have hskip : Skips true skipValue x.value := skips_skipValue (hplain ▸ x.value_form) (by omega)
    refine ⟨(gives_readRaw x.key_form).bind ?_, hs⟩
    rw [x.unknown]
    exact Scan.Reads.map hskip fun _ => s

theorem refuses_readField (hlen : (bytes e).length < 2 ^ 32) (hplain : plain e = false) (s : σ) :
    Refuses (readField fields s) (bytes e) := by
  cases e with
  | inl i => cases hplain
  | inr x =>
    rw [bytes, List.length_append] at hlen
    have hskip : Skips false skipValue x.value := skips_skipValue (hplain ▸ x.value_form) (by omega)
    refine .bind_right (gives_readRaw x.key_form) ?_
    rw [x.unknown]
    exact Scan.Refuses.bind_left hskip

end Entry

/-! ## Maps with other fields in them -/

/-- What is decoded off the front of a buffer, and how many bytes are left behind it. -/
def decoded (p : Reader σ) (buf : Bytes) : Except (Fault MsgpackError) (σ × Nat) :=
  (p buf 0).map fun r => (r.1, buf.length - r.2)

variable {known : List (FieldForm σ)} {s t : σ} {w more : Bytes}

theorem decoded_of_gives {p : Reader σ} (h : Gives p w t) (hlen : (w ++ more).length < 2 ^ 32) :
    decoded p (w ++ more) = .ok (t, more.length) := by
  rw [List.length_append] at hlen
  have hrun : p (w ++ more) 0 = .ok (t, w.length) :=
    run_of_gives h [] more (show w.length < 2 ^ 32 by omega)
  rw [decoded, hrun]
  simp [Except.map]

theorem decoded_of_refuses {p : Reader σ} (h : Refuses p w) (more : Bytes) :
    ∃ e, decoded p (w ++ more) = .error e := by
  obtain ⟨e, he⟩ := h [] more (by decide)
  exact ⟨e, by rw [decoded, show p (w ++ more) 0 = .error e from he]; rfl⟩

variable {entries : List (Entry fields)} {head : Bytes}

theorem readField_entries {P : σ → Prop} (hk : ∀ f ∈ known, Knows fields P f)
    (hentries : ∀ i, .inl i ∈ entries → i.field ∈ known) (hhead : MapHead entries.length head)
    (hlen : (head ++ entries.flatMap Entry.bytes).length < 2 ^ 32) : ∀ e ∈ entries, ∀ s, P s →
      (Entry.plain e = true →
        Gives (readField fields s) (Entry.bytes e) (Entry.copy e s) ∧ P (Entry.copy e s)) ∧
      (¬Entry.plain e = true → Refuses (readField fields s) (Entry.bytes e)) := by
  intro e he s hs
  have hlt := length_lt_of_mem Entry.bytes hhead.length_pos he
  refine ⟨fun hplain => ?_, fun hplain => ?_⟩
  · exact Entry.gives_readField (fun i hi => hk i.field (hentries i (hi ▸ he))) (by omega) hplain hs
  · exact Entry.refuses_readField (by omega) (Bool.eq_false_of_not_eq_true hplain) s

theorem gives_entries (hknown : Takes fields known s)
    (hentries : ∀ i, .inl i ∈ entries → i.field ∈ known)
    (hhead : MapHead entries.length head)
    (hlen : (head ++ entries.flatMap Entry.bytes).length < 2 ^ 32)
    (hplain : ∀ e ∈ entries, Entry.plain e = true) :
    Gives (readMapFields fields s) (head ++ entries.flatMap Entry.bytes)
      ((entries.filterMap Sum.getLeft?).foldl (fun s i => i.field.copy s) s) := by
  obtain ⟨P, hs, hk, -⟩ := hknown
  have hround := readField_entries hk hentries hhead hlen
  rw [← Entry.foldl_copy]
  exact (gives_readMapHeader hhead).bind
    (Scan.Reads.iterate (fun e he s hs => (hround e he s hs).1 (hplain e he)) hs)

theorem refuses_entries (hknown : Takes fields known s)
    (hentries : ∀ i, .inl i ∈ entries → i.field ∈ known)
    (hhead : MapHead entries.length head)
    (hlen : (head ++ entries.flatMap Entry.bytes).length < 2 ^ 32)
    (hbad : ∃ e ∈ entries, ¬Entry.plain e = true) :
    Refuses (readMapFields fields s) (head ++ entries.flatMap Entry.bytes) := by
  obtain ⟨P, hs, hk, -⟩ := hknown
  exact .bind_right (gives_readMapHeader hhead)
    (Scan.Refuses.iterate (readField_entries hk hentries hhead hlen) hs hbad)

theorem gives_items (hknown : Takes fields known s) {items : List (Item σ)}
    (hitems : ∀ i ∈ items, i.field ∈ known)
    (hhead : MapHead items.length head)
    (hlen : (head ++ items.flatMap Item.bytes).length < 2 ^ 32) :
    Gives (readMapFields fields s) (head ++ items.flatMap Item.bytes)
      (items.foldl (fun s i => i.field.copy s) s) := by
  have hbytes : (items.map Sum.inl).flatMap (@Entry.bytes σ fields) = items.flatMap Item.bytes :=
    List.flatMap_map ..
  have hentries (i : Item σ) (hi : .inl i ∈ (items.map Sum.inl : List (Entry fields))) :
      i.field ∈ known :=
    hitems i (by simpa using hi)
  have hall :=
    gives_entries hknown hentries (by rwa [List.length_map]) (by rwa [hbytes])
      (by simp [Entry.plain])
  rwa [hbytes, List.filterMap_map, show Sum.getLeft? ∘ Sum.inl = some from rfl,
    List.filterMap_some] at hall

/-- Fields the table does not know change neither the value nor where it ends, if their
values are plain. -/
theorem decoded_entries_iff (hknown : Takes fields known s) {items : List (Item σ)}
    (hitems : ∀ i ∈ items, i.field ∈ known) (hperm : (entries.filterMap Sum.getLeft?).Perm items)
    {head' : Bytes} (hhead : MapHead items.length head) (hhead' : MapHead entries.length head')
    (hlen : (head ++ items.flatMap Item.bytes ++ more).length < 2 ^ 32)
    (hlen' : (head' ++ entries.flatMap Entry.bytes ++ more).length < 2 ^ 32) :
    decoded (readMapFields fields s) (head' ++ entries.flatMap Entry.bytes ++ more) =
        decoded (readMapFields fields s) (head ++ items.flatMap Item.bytes ++ more) ↔
      ∀ e ∈ entries, Entry.plain e = true := by
  have hentries (i : Item σ) (hi : .inl i ∈ entries) : i.field ∈ known :=
    hitems i (hperm.mem_iff.mp (List.mem_filterMap.mpr ⟨_, hi, rfl⟩))
  have hless : (head ++ items.flatMap Item.bytes).length < 2 ^ 32 :=
    (List.sublist_append_left _ more).length_le.trans_lt hlen
  have hless' : (head' ++ entries.flatMap Entry.bytes).length < 2 ^ 32 :=
    (List.sublist_append_left _ more).length_le.trans_lt hlen'
  rw [decoded_of_gives (gives_items hknown hitems hhead hless) hlen]
  constructor
  · intro h e he
    by_contra hbad
    have hrefuses := refuses_entries hknown hentries hhead' hless' ⟨e, he, hbad⟩
    obtain ⟨e, he⟩ := decoded_of_refuses hrefuses more
    rw [he] at h
    cases h
  · intro hplain
    rw [decoded_of_gives (gives_entries hknown hentries hhead' hless' hplain) hlen']
    obtain ⟨-, -, -, hc⟩ := hknown
    have hfold := hperm.foldl_eq' (f := fun s (i : Item σ) => i.field.copy s)
      (fun i hi j hj s =>
        hc i.field (hitems i (hperm.mem_iff.mp hi)) j.field (hitems j (hperm.mem_iff.mp hj)) s) s
    rw [hfold]

end

/-! ## The learner's decoders -/

inductive Schema
  | log
  | appendEntries
  | requestVote
  | requestPreVote
  | installSnapshot
  | timeoutNow
deriving DecidableEq, Repr

namespace Schema

abbrev Value : Schema → Type
  | log => Log
  | appendEntries => AppendEntriesRequest
  | requestVote => RequestVoteRequest
  | requestPreVote => RequestPreVoteRequest
  | installSnapshot => InstallSnapshotRequest
  | timeoutNow => TimeoutNowRequest

def fields : (m : Schema) → Fields m.Value
  | log => logFields
  | appendEntries => appendEntriesFields
  | requestVote => requestVoteFields
  | requestPreVote => requestPreVoteFields
  | installSnapshot => installSnapshotFields
  | timeoutNow => timeoutNowFields

def forms : (m : Schema) → m.Value → List (FieldForm m.Value)
  | log => logForms
  | appendEntries => appendEntriesForms
  | requestVote => requestVoteForms
  | requestPreVote => requestPreVoteForms
  | installSnapshot => installSnapshotForms
  | timeoutNow => timeoutNowForms

def decode : (m : Schema) → Reader m.Value
  | log => decodeLog
  | appendEntries => decodeAppendEntriesRequest
  | requestVote => decodeRequestVoteRequest
  | requestPreVote => decodeRequestPreVoteRequest
  | installSnapshot => decodeInstallSnapshotRequest
  | timeoutNow => decodeTimeoutNowRequest

theorem decode_takes (m : Schema) (v : m.Value) :
    ∃ s, m.decode = readMapFields m.fields s ∧ Takes m.fields (m.forms v) s := by
  cases m with
  | log => exact ⟨_, rfl, takes_log v⟩
  | appendEntries => exact ⟨_, rfl, takes_appendEntries v⟩
  | requestVote => exact ⟨_, rfl, takes_requestVote v⟩
  | requestPreVote => exact ⟨_, rfl, takes_requestPreVote v⟩
  | installSnapshot => exact ⟨_, rfl, takes_installSnapshot v⟩
  | timeoutNow => exact ⟨_, rfl, takes_timeoutNow v⟩

end Schema

/-- A map with some or all fields of a request, and a map with the same fields and others between
them, in any order: the two are decoded alike, up to the bytes behind them, exactly if the others'
values are plain. -/
theorem unknown_fields_iff (m : Schema) (v : m.Value) {items : List (Item m.Value)}
    (hitems : ∀ i ∈ items, i.field ∈ m.forms v) {entries : List (Entry m.fields)}
    (hperm : (entries.filterMap Sum.getLeft?).Perm items) {head head' : Bytes}
    (hhead : MapHead items.length head) (hhead' : MapHead entries.length head') (more : Bytes)
    (hlen : (head ++ items.flatMap Item.bytes ++ more).length < 2 ^ 32)
    (hlen' : (head' ++ entries.flatMap Entry.bytes ++ more).length < 2 ^ 32) :
    decoded m.decode (head' ++ entries.flatMap Entry.bytes ++ more) =
        decoded m.decode (head ++ items.flatMap Item.bytes ++ more) ↔
      ∀ x ∈ entries.filterMap Sum.getRight?, x.plain = true := by
  obtain ⟨s, hdecode, htakes⟩ := m.decode_takes v
  have hplain : (∀ e ∈ entries, Entry.plain e = true) ↔
      ∀ x ∈ entries.filterMap Sum.getRight?, x.plain = true := by
    constructor
    · intro h x hx
      obtain ⟨e, he, hright⟩ := List.mem_filterMap.mp hx
      cases e with
      | inl i => cases hright
      | inr y =>
        cases hright
        exact h _ he
    · intro h e he
      cases e with
      | inl i => rfl
      | inr x => exact h x (List.mem_filterMap.mpr ⟨_, he, rfl⟩)
  rw [hdecode, ← hplain]
  exact decoded_entries_iff htakes hitems hperm hhead hhead' hlen hlen'

theorem lookup_spare : (Schema.fields .requestVote).lookup (ascii "x") = none := rfl

theorem rawForm_spare : RawForm (ascii "x") [0xa1, 0x78] := .fix (by decide)

def spare : Extra (Schema.fields .requestVote) where
  name := ascii "x"
  key := [0xa1, 0x78]
  value := [0xc0]
  plain := true
  unknown := lookup_spare
  key_form := rawForm_spare
  value_form := .nil

def sampleVote : RequestVoteRequest := { term := 5, lastLogIndex := 6 }

def termItem : Item RequestVoteRequest :=
  ⟨⟨ascii "Term", UintForm sampleVote.term.toNat, fun s => { s with term := sampleVote.term }⟩,
    0xa4 :: ascii "Term", [5], .fix (by decide), .fix (by decide)⟩

def lastLogIndexItem : Item RequestVoteRequest :=
  ⟨⟨ascii "LastLogIndex", UintForm sampleVote.lastLogIndex.toNat,
    fun s => { s with lastLogIndex := sampleVote.lastLogIndex }⟩,
    0xac :: ascii "LastLogIndex", [6], .fix (by decide), .fix (by decide)⟩

/-- The spare field between the two. -/
theorem unknown_fields_between :
    decoded (Schema.decode .requestVote)
        ([0x83] ++ (termItem.bytes ++ [0xa1, 0x78, 0xc0] ++ lastLogIndexItem.bytes) ++ [0x07]) =
      decoded (Schema.decode .requestVote)
        ([0x82] ++ (termItem.bytes ++ lastLogIndexItem.bytes) ++ [0x07]) := by
  have hitems : ∀ i ∈ [termItem, lastLogIndexItem],
      i.field ∈ Schema.forms .requestVote sampleVote := by
    intro i hi
    simp only [List.mem_cons, List.not_mem_nil, or_false] at hi
    obtain rfl | rfl := hi <;> simp [Schema.forms, requestVoteForms, termItem, lastLogIndexItem]
  exact (@unknown_fields_iff .requestVote sampleVote [termItem, lastLogIndexItem] hitems
    [.inl termItem, .inr spare, .inl lastLogIndexItem] (.refl _) [0x82] [0x83] (.fix (by decide))
    (.fix (by decide)) [0x07] (by decide) (by decide)).mpr (by simp [spare])

/-- The spare field holds a float: the request is refused. -/
theorem unknown_float_refused :
    (Schema.fields .requestVote).lookup (ascii "x") = none ∧ ValueForm false [0xca, 0, 0, 0, 0] ∧
      decoded (Schema.decode .requestVote) [0x80] = .ok ({}, 0) ∧
      decoded (Schema.decode .requestVote) [0x81, 0xa1, 0x78, 0xca, 0, 0, 0, 0] =
        .error (.err (.badTag 0xca)) := by
  refine ⟨lookup_spare, .float (k := 4) (by decide) rfl, by decide, ?_⟩
  decide +kernel

end KvRaft.Web
