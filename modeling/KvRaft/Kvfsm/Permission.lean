import KvRaft.Kvfsm.Apply

/-! # Who may run a command

The rule behind `IsPermittedForCommand`, stated over the records that are there: some group is
linked to the command, and the group is public or the peer belongs to it. The scan finds exactly the
links of the command, since the command's identifier comes with its length in the key, and stops at
the first group that will do. -/

namespace KvRaft.Kvfsm

open Bytes Shmevent

/-- There is a record under the key that was built. -/
def HasRecord (s : Store) (key : Except Err Bytes) : Prop := ∃ k v, key = .ok k ∧ s.get k = some v

def PublicGroup (s : Store) (g : Bytes) : Prop :=
  ∃ v name, s.get (groupKey g) = some v ∧ decodeGroupPayload v = .ok (name, true)

/-- The peer may run the command: a group linked to it is public, or has the peer as a member. -/
def Permitted (s : Store) (commandID peerID : Bytes) : Prop :=
  ∃ g, HasRecord s (groupCommandKey commandID g) ∧
    (PublicGroup s g ∨ HasRecord s (peerGroupKey peerID g))

variable {s : Store} {commandID peerID : Bytes}

theorem isPublicGroup_iff {g : Bytes} : isPublicGroup s g = true ↔ PublicGroup s g := by
  unfold isPublicGroup PublicGroup
  rcases s.get (groupKey g) with _ | v
  · simp
  · rcases hd : decodeGroupPayload v with e | ⟨name, isPublic⟩
    · simp [hd]
    · simp only [hd]
      constructor
      · rintro rfl
        exact ⟨v, name, rfl, hd⟩
      · rintro ⟨v', name', hv, hd'⟩
        cases hv
        cases hd.symm.trans hd'
        rfl

theorem hasRecord_ok {k : Bytes} : HasRecord s (.ok k) ↔ (s.get k).isSome = true := by
  rw [Option.isSome_iff_exists]
  constructor
  · rintro ⟨k', v, hk, hv⟩
    cases hk
    exact ⟨v, hv⟩
  · rintro ⟨v, hv⟩
    exact ⟨k, v, rfl, hv⟩

/-- Whether the group lets the peer run the commands it is linked to. -/
def Admits (s : Store) (peerID g : Bytes) : Prop :=
  PublicGroup s g ∨ HasRecord s (peerGroupKey peerID g)

theorem anyGroupPermits_of_links (hpeer : peerID.length ≤ 0xFFFF)
    {ms : List (Bytes × Bytes)} (hlinks : ∀ m ∈ ms, ∃ g, groupCommandKey commandID g = .ok m.1) :
    ∃ b, anyGroupPermits s peerID ms = .ok b ∧
      (b = true ↔ ∃ g, (∃ m ∈ ms, groupCommandKey commandID g = .ok m.1) ∧ Admits s peerID g) := by
  induction ms with
  | nil => exact ⟨false, rfl, by simp⟩
  | cons m ms ih =>
    obtain ⟨⟨g, hg⟩, hms⟩ := List.forall_mem_cons.mp hlinks
    obtain ⟨b, hb, hiff⟩ := ih hms
    have hparse : parseGroupCommandKey m.1 = .ok (commandID, g) := parseRelationKey_relationKey hg
    have hkey : ∃ k, peerGroupKey peerID g = .ok k := ⟨_, relationKey_of_le hpeer _ _⟩
    obtain ⟨k, hk⟩ := hkey
    -- the group of the first link is `g` and no other
    have hhead :
        (∃ g', (∃ m' ∈ m :: ms, groupCommandKey commandID g' = .ok m'.1) ∧ Admits s peerID g') ↔
        Admits s peerID g ∨
          ∃ g', (∃ m' ∈ ms, groupCommandKey commandID g' = .ok m'.1) ∧ Admits s peerID g' := by
      constructor
      · rintro ⟨g', ⟨m', hm', hg'⟩, hadm⟩
        rcases List.mem_cons.mp hm' with rfl | hm'
        · obtain ⟨-, rfl⟩ := relationKey_inj hg hg'
          exact .inl hadm
        · exact .inr ⟨g', ⟨m', hm', hg'⟩, hadm⟩
      · rintro (hadm | ⟨g', ⟨m', hm', hg'⟩, hadm⟩)
        · exact ⟨g, ⟨m, List.mem_cons_self, hg⟩, hadm⟩
        · exact ⟨g', ⟨m', List.mem_cons_of_mem _ hm', hg'⟩, hadm⟩
    rw [hhead, ← hiff]
    simp only [anyGroupPermits, hparse, hk]
    have hadm : Admits s peerID g ↔ isPublicGroup s g = true ∨ (s.get k).isSome = true := by
      rw [Admits, hk, hasRecord_ok, isPublicGroup_iff]
    by_cases hpub : isPublicGroup s g = true
    · rw [if_pos hpub]
      exact ⟨true, rfl, by simp [hadm, hpub]⟩
    · rw [if_neg hpub]
      by_cases hmem : (s.get k).isSome = true
      · rw [if_pos hmem]
        exact ⟨true, rfl, by simp [hadm, hmem]⟩
      · rw [if_neg hmem]
        exact ⟨b, hb, by simp [hadm, hpub, hmem]⟩

theorem hasRecord_link_iff {p : Bytes} (hp : groupCommandKey commandID [] = .ok p)
    (g : Bytes) : HasRecord s (groupCommandKey commandID g) ↔
      ∃ m ∈ s.scanPrefix p 0, groupCommandKey commandID g = .ok m.1 := by
  constructor
  · rintro ⟨k, v, hg, hv⟩
    exact ⟨(k, v), Store.mem_scanPrefix.mpr ⟨(relationKey_nil_isPrefix hp k).mpr ⟨g, hg⟩, hv⟩, hg⟩
  · rintro ⟨⟨k, v⟩, hm, hg⟩
    exact ⟨k, v, hg, (Store.mem_scanPrefix.mp hm).2⟩

theorem isPermittedForCommand_spec (s : Store)
    (hcommand : commandID.length ≤ 0xFFFF) (hpeer : peerID.length ≤ 0xFFFF) :
    ∃ b, isPermittedForCommand s commandID peerID = .ok b ∧
      (b = true ↔ Permitted s commandID peerID) := by
  have hp : groupCommandKey commandID [] = .ok _ := relationKey_of_le hcommand _ _
  have hlinks : ∀ m ∈ s.scanPrefix _ 0, ∃ g, groupCommandKey commandID g = .ok m.1 := fun m hm =>
    (relationKey_nil_isPrefix hp m.1).mp (Store.mem_scanPrefix.mp hm).1
  obtain ⟨b, hb, hiff⟩ := anyGroupPermits_of_links (s := s) hpeer hlinks
  refine ⟨b, ?_,
    hiff.trans (exists_congr fun g => and_congr_left fun _ => (hasRecord_link_iff hp g).symm)⟩
  simp only [isPermittedForCommand, hp]
  exact hb

theorem permitted_iff (hcommand : commandID.length ≤ 0xFFFF)
    (hpeer : peerID.length ≤ 0xFFFF) :
    isPermittedForCommand s commandID peerID = .ok true ↔ Permitted s commandID peerID := by
  obtain ⟨b, hb, hiff⟩ := isPermittedForCommand_spec s hcommand hpeer
  rw [hb, ← hiff]
  simp

end KvRaft.Kvfsm
