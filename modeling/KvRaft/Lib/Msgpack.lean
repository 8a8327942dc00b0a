import KvRaft.Lib.Bytes

/-! # Forms of the msgpack format

The encodings that the format allows for a number, a byte string, a truth value or the head of a
collection, in every width that holds the value. No encoder is fixed: a form is whatever one of them
may write. -/

namespace Msgpack

open Bytes

/-! ## Two's complement -/

/-- The signed number of `b`'s width that `b` denotes, most significant byte first. -/
def beInt (b : Bytes) : Int :=
  if 2 * beNat b < 256 ^ b.length then beNat b else beNat b - 256 ^ b.length

theorem beInt_beBytes {k : Nat} {i : Int} (h : -(256 ^ k) ≤ 2 * i ∧ 2 * i < 256 ^ k) :
    beInt (beBytes k (i % 256 ^ k).toNat) = i := by
  have hpos : (0 : Int) < 256 ^ k := by positivity
  have hcast : ((256 ^ k : Nat) : Int) = 256 ^ k := by push_cast; rfl
  have hlo := Int.emod_nonneg i hpos.ne'
  have hhi := Int.emod_lt_of_pos i hpos
  have hlt : (i % 256 ^ k).toNat < 256 ^ k := by omega
  rw [beInt, beNat_beBytes hlt, length_beBytes]
  rcases lt_or_ge i 0 with hi | hi
  · have hm : i % 256 ^ k = i + 256 ^ k := by
      rw [← Int.add_emod_right, Int.emod_eq_of_lt (by omega) (by omega)]
    rw [if_neg (by omega)]
    omega
  · have hm : i % 256 ^ k = i := Int.emod_eq_of_lt hi (by omega)
    rw [if_pos (by omega)]
    omega

theorem beInt_byte {i : Int} (h : -256 ≤ 2 * i ∧ 2 * i < 256) :
    beInt [UInt8.ofNat (i % 256).toNat] = i := beInt_beBytes (k := 1) h

/-! ## Values -/

theorem mem_tag {tag a : UInt8} {k n : Nat} : (tag, k) ∈ [(a, n)] ↔ tag = a ∧ k = n := by simp

theorem mem_tags {tag a : UInt8} {k n : Nat} {x : UInt8 × Nat} {l : List (UInt8 × Nat)} :
    (tag, k) ∈ (a, n) :: x :: l ↔ tag = a ∧ k = n ∨ (tag, k) ∈ x :: l := by simp

inductive UintForm (n : Nat) : Bytes → Prop
  | fix (h : n < 0x80) : UintForm n [UInt8.ofNat n]
  | wide {tag : UInt8} {k : Nat} (htag : (tag, k) ∈ [(0xcc, 1), (0xcd, 2), (0xce, 4), (0xcf, 8)])
      (h : n < 256 ^ k) : UintForm n (tag :: beBytes k n)

/-- Signed numbers; one that is not negative may have an unsigned form. -/
inductive SintForm (i : Int) : Bytes → Prop
  | unsigned {n : Nat} {w : Bytes} (hi : i = n) (h : UintForm n w) : SintForm i w
  | fix (h : -32 ≤ i ∧ i < 0) : SintForm i [UInt8.ofNat (i + 256).toNat]
  | wide {tag : UInt8} {k : Nat} (htag : (tag, k) ∈ [(0xd0, 1), (0xd1, 2), (0xd2, 4), (0xd3, 8)])
      (h : -(256 ^ k) ≤ 2 * i ∧ 2 * i < 256 ^ k) : SintForm i (tag :: beBytes k (i % 256 ^ k).toNat)

inductive RawForm (b : Bytes) : Bytes → Prop
  | fix (h : b.length < 32) : RawForm b (UInt8.ofNat (0xa0 + b.length) :: b)
  | wide {tag : UInt8} {k : Nat} (htag : (tag, k) ∈ [(0xd9, 1), (0xda, 2), (0xdb, 4)])
      (h : b.length < 256 ^ k) : RawForm b (tag :: (beBytes k b.length ++ b))

theorem RawForm.exists_tag {b w : Bytes} (h : RawForm b w) {P : UInt8 → Prop}
    (hfix : ∀ n < 32, P (UInt8.ofNat (0xa0 + n))) (h8 : P 0xd9) (h16 : P 0xda) (h32 : P 0xdb) :
    ∃ tag rest, w = tag :: rest ∧ P tag := by
  cases h with
  | fix h => exact ⟨_, _, rfl, hfix _ h⟩
  | wide htag h =>
    refine ⟨_, _, rfl, ?_⟩
    simp only [mem_tags, mem_tag] at htag
    obtain ⟨rfl, -⟩ | ⟨rfl, -⟩ | ⟨rfl, -⟩ := htag <;> assumption

theorem RawForm.head_ne_nil {b w : Bytes} (h : RawForm b w) :
    ∃ tag rest, w = tag :: rest ∧ tag ≠ 0xc0 :=
  h.exists_tag (by decide) (by decide) (by decide) (by decide)

inductive OptForm : Option Bytes → Bytes → Prop
  | nil : OptForm none [0xc0]
  | raw {b w : Bytes} (h : RawForm b w) : OptForm (some b) w

inductive BoolForm : Bool → Bytes → Prop
  | true : BoolForm true [0xc3]
  | false : BoolForm false [0xc2]

/-- The number of a collection's members. -/
inductive CountForm (fix wide16 wide32 : UInt8) (n : Nat) : Bytes → Prop
  | fix (h : n < 16) : CountForm fix wide16 wide32 n [fix + UInt8.ofNat n]
  | wide {tag : UInt8} {k : Nat} (htag : (tag, k) ∈ [(wide16, 2), (wide32, 4)]) (h : n < 256 ^ k) :
      CountForm fix wide16 wide32 n (tag :: beBytes k n)

theorem CountForm.exists_tag {fix wide16 wide32 : UInt8} {n : Nat} {w : Bytes}
    (h : CountForm fix wide16 wide32 n w) {P : UInt8 → Prop}
    (hfix : ∀ n < 16, P (fix + UInt8.ofNat n)) (h16 : P wide16) (h32 : P wide32) :
    ∃ tag rest, w = tag :: rest ∧ P tag := by
  cases h with
  | fix h => exact ⟨_, _, rfl, hfix _ h⟩
  | wide htag h =>
    refine ⟨_, _, rfl, ?_⟩
    simp only [mem_tags, mem_tag] at htag
    obtain ⟨rfl, -⟩ | ⟨rfl, -⟩ := htag <;> assumption

abbrev MapHead := CountForm 0x80 0xde 0xdf

abbrev ArrayHead := CountForm 0x90 0xdc 0xdd

theorem ArrayHead.head_ne_nil {n : Nat} {w : Bytes} (h : ArrayHead n w) :
    ∃ tag rest, w = tag :: rest ∧ tag ≠ 0xc0 :=
  h.exists_tag (by decide) (by decide) (by decide)

/-- An array of values that each have a form. -/
def ArrayForm {α : Type} (form : α → Bytes → Prop) (as : List α) (w : Bytes) : Prop :=
  ∃ (items : List (α × Bytes)) (head : Bytes), items.map Prod.fst = as ∧
    (∀ i ∈ items, form i.1 i.2) ∧ ArrayHead as.length head ∧ w = head ++ items.flatMap Prod.snd

/-- Values of any kind, nested to any depth. The first index says of a value whether it is plain,
that is, without floats, binaries and extensions at any depth. -/
inductive ValueForm : Bool → Bytes → Prop
  | nil : ValueForm true [0xc0]
  | bool {b : Bool} {w : Bytes} (h : BoolForm b w) : ValueForm true w
  | int {i : Int} {w : Bytes} (h : SintForm i w) : ValueForm true w
  | float {tag : UInt8} {k : Nat} {b : Bytes} (htag : (tag, k) ∈ [(0xca, 4), (0xcb, 8)])
      (h : b.length = k) :
      ValueForm false (tag :: b)
  | str {b w : Bytes} (h : RawForm b w) : ValueForm true w
  | bin {tag : UInt8} {k : Nat} {b : Bytes} (htag : (tag, k) ∈ [(0xc4, 1), (0xc5, 2), (0xc6, 4)])
      (h : b.length < 256 ^ k) : ValueForm false (tag :: (beBytes k b.length ++ b))
  | array {items : List (Bool × Bytes)} {head : Bytes} (hhead : ArrayHead items.length head)
      (hitems : ∀ i ∈ items, ValueForm i.1 i.2) :
        ValueForm (items.all Prod.fst) (head ++ items.flatMap Prod.snd)
  | map {pairs : List ((Bool × Bytes) × (Bool × Bytes))} {head : Bytes}
      (hhead : MapHead pairs.length head)
      (hkeys : ∀ p ∈ pairs, ValueForm p.1.1 p.1.2) (hvalues : ∀ p ∈ pairs, ValueForm p.2.1 p.2.2) :
      ValueForm (pairs.all fun p => p.1.1 && p.2.1) (head ++ pairs.flatMap fun p => p.1.2 ++ p.2.2)
  | fixext {tag kind : UInt8} {k : Nat} {b : Bytes}
      (htag : (tag, k) ∈ [(0xd4, 1), (0xd5, 2), (0xd6, 4), (0xd7, 8), (0xd8, 16)])
      (h : b.length = k) :
      ValueForm false (tag :: kind :: b)
  | ext {tag kind : UInt8} {k : Nat} {b : Bytes}
      (htag : (tag, k) ∈ [(0xc7, 1), (0xc8, 2), (0xc9, 4)])
      (h : b.length < 256 ^ k) : ValueForm false (tag :: (beBytes k b.length ++ kind :: b))

theorem CountForm.length_pos {fix wide16 wide32 : UInt8} {n : Nat} {w : Bytes}
    (h : CountForm fix wide16 wide32 n w) :
    0 < w.length := by
  cases h <;> simp

theorem ValueForm.length_pos {plain : Bool} {w : Bytes} (h : ValueForm plain w) : 0 < w.length := by
  cases h with
  | nil | float | bin | fixext | ext => simp
  | bool h => cases h <;> simp
  | int h =>
    rcases h with ⟨-, h⟩ | h | ⟨-, h⟩
    · cases h <;> simp
    · simp
    · simp
  | str h => cases h <;> simp
  | array hhead | map hhead =>
    have hpos := hhead.length_pos
    rw [List.length_append]
    omega

/-! ## Records

A record is a map from the names of its fields. -/

/-- A field: its name, the forms of its value, and how a record takes the value over. -/
structure FieldForm (σ : Type) where
  name : Bytes
  form : Bytes → Prop
  copy : σ → σ

structure Item (σ : Type) where
  field : FieldForm σ
  key : Bytes
  value : Bytes
  key_form : RawForm field.name key
  value_form : field.form value

def Item.bytes {σ : Type} (i : Item σ) : Bytes := i.key ++ i.value

/-- A map with these fields, in any order. -/
def MapForm {σ : Type} (fields : List (FieldForm σ)) (w : Bytes) : Prop :=
  ∃ (items : List (Item σ)) (head : Bytes), (items.map Item.field).Perm fields ∧
    MapHead items.length head ∧ w = head ++ items.flatMap Item.bytes

theorem MapForm.of_forall₂ {σ : Type} {fields : List (FieldForm σ)} {head : Bytes}
    {keys values : List Bytes}
    (hhead : MapHead fields.length head)
    (hkeys : List.Forall₂ (fun f key => RawForm f.name key) fields keys)
    (hvalues : List.Forall₂ FieldForm.form fields values) :
    MapForm fields (head ++ (List.zipWith (· ++ ·) keys values).flatten) := by
  have hitems : ∃ items : List (Item σ), items.map Item.field = fields ∧
      items.flatMap Item.bytes = (List.zipWith (· ++ ·) keys values).flatten := by
    clear hhead
    induction hkeys generalizing values with
    | nil =>
      cases hvalues
      exact ⟨[], rfl, rfl⟩
    | @cons f key fields keys hkey _ ih =>
      cases hvalues with
      | @cons _ value _ values hvalue hvalues =>
        obtain ⟨items, hfields, hbytes⟩ := ih hvalues
        refine ⟨⟨f, key, value, hkey, hvalue⟩ :: items, by simp [hfields], ?_⟩
        rw [List.flatMap_cons, hbytes]
        rfl
  obtain ⟨items, rfl, hbytes⟩ := hitems
  rw [List.length_map] at hhead
  exact ⟨items, head, .refl _, hhead, by rw [hbytes]⟩

/-- A map whose size and names have their shortest form. -/
def shortMap (names values : List Bytes) : Bytes :=
  (0x80 + UInt8.ofNat names.length) ::
    (List.zipWith (fun name value => UInt8.ofNat (0xa0 + name.length) :: name ++ value) names
      values).flatten

theorem MapForm.of_short {σ : Type} {fields : List (FieldForm σ)} (hsize : fields.length < 16)
    (hnames : ∀ f ∈ fields, f.name.length < 32) {values : List Bytes}
    (hvalues : List.Forall₂ FieldForm.form fields values) :
    MapForm fields (shortMap (fields.map FieldForm.name) values) := by
  have hkeys : List.Forall₂ (fun f key => RawForm f.name key) fields
      (fields.map fun f => UInt8.ofNat (0xa0 + f.name.length) :: f.name) :=
    List.forall₂_map_right_iff.mpr (List.forall₂_same.mpr fun f hf => .fix (hnames f hf))
  have h := MapForm.of_forall₂ (.fix hsize) hkeys hvalues
  rw [shortMap, List.length_map, List.zipWith_map_left]
  rwa [List.zipWith_map_left] at h

/-- Fields that can be copied in any order. -/
def AnyOrder {σ : Type} (fields : List (FieldForm σ)) : Prop :=
  ∀ f ∈ fields, ∀ g ∈ fields, ∀ s, g.copy (f.copy s) = f.copy (g.copy s)

theorem foldl_copy_perm {σ : Type} {fields order : List (FieldForm σ)} (hp : order.Perm fields)
    (hc : AnyOrder fields) (s : σ) :
    order.foldl (fun s f => f.copy s) s = fields.foldl (fun s f => f.copy s) s :=
  hp.foldl_eq' (fun f hf g hg s => hc f (hp.mem_iff.mp hf) g (hp.mem_iff.mp hg) s) s

theorem MapForm.head_ge {σ : Type} {fields : List (FieldForm σ)} {w : Bytes}
    (h : MapForm fields w) :
    ∃ b rest, w = b :: rest ∧ 0x80 ≤ b := by
  obtain ⟨items, head, -, hhead, rfl⟩ := h
  obtain ⟨tag, rest, rfl, htag⟩ :=
    hhead.exists_tag (P := (0x80 ≤ ·)) (by decide) (by decide) (by decide)
  exact ⟨tag, _, rfl, htag⟩

end Msgpack
