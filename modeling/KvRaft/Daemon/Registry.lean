import KvRaft.Daemon.Settings

/-! # The registry of message ids

`setKey` puts a value under the id of its message, and `setField`, `getKey`, `execute` and
`addLearner` take the values they work with from there. The ids are shared by all callers, so a
caller gets what it registered only as long as nobody else registers anything between its own
`setKey` and the use.

That a message uses an id is said by what it does: another entry under the id, and it would answer
otherwise or leave another node behind. `uses_iff` finds these ids in the message. -/

namespace KvRaft.Daemon

open Bytes Shmevent Kvfsm EStateM

/-! ## Programs that do not see the registry -/

def Node.withRegistry (n : Node) (reg : OrdMap Nat Data) : Node := { n with registry := reg }

section Blind

variable {reg : OrdMap Nat Data}

end Blind

/-! ## Messages -/

/-- A message, who sent it, and how the libraries answer while it is served. Two senders may have
the same identity: all local callers do. -/
structure Sent (ι : Type) where
  sender : ι
  env : Env
  request : Request
  caller : CallerIdentity

variable {ι : Type}

def Sent.body (m : Sent ι) : Event := m.request.msg.body

def Sent.serve (m : Sent ι) (n : Node) : Node := (handleShmEvent m.env m.request m.caller).final n

def serveSent (n : Node) (t : List (Sent ι)) : Node := t.foldl (fun n m => m.serve n) n

def Sent.checks (m : Sent ι) : M Unit :=
  checkRefused m.caller m.body >>= fun _ =>
    (if requiresSignature m.body then
      ofExcept (m.env.verify m.caller.verifyPub m.request.msg m.request.crc m.request.sig)
    else pure ()) >>= fun _ => checkStanding m.caller m.body

/-- What a message does: its answer, and the node it leaves behind, but for the registry. -/
def Sent.effect (m : Sent ι) (n : Node) : EStateM.Result Err Node Event :=
  onState (·.withRegistry OrdMap.empty) (handleShmEvent m.env m.request m.caller n)

def takesEntries : Event → Bool
  | .setField .. => true
  | .getKey .. => true
  | .execute .. => true
  | .addLearner .. => true
  | _ => false

/-- Another entry under the id, and the message would do something else. -/
def Sent.Uses (m : Sent ι) (n : Node) (k : UInt16) : Prop :=
  takesEntries m.body = true ∧ ∃ reg : OrdMap Nat Data,
    (∀ i, i ≠ k.toNat → reg.get i = n.registry.get i) ∧ m.effect (n.withRegistry reg) ≠ m.effect n

def Sent.Takes (m : Sent ι) (n : Node) (k : UInt16) (entry : Option Data) : Prop :=
  m.Uses n k ∧ n.registry.get k.toNat = entry

/-! ## The ids in a message -/

/-- What an `execute` of the node itself makes of its destination. -/
def executeTo (env : Env) (destinationId : UInt16) (value : Data) : Option Data → Except Err Unit
  | none => .error (.executeNoDestination destinationId)
  | some dest =>
    if env.isPeerID dest.1 then env.sendExecute dest.1 value.1
    else .error (.executeInvalidDestination dest.1)

/-- The ids in the message that its handler comes to look up. The destination of an `execute` counts
if the source is the node itself and some destination fares differently from another. -/
def Sent.Reads (m : Sent ι) (n : Node) (k : UInt16) : Prop :=
  match m.body with
  | .getKey sourceId _ => k = sourceId
  | .setField sourceId _ => k = sourceId
  | .addLearner claimedPeerId _ => k = claimedPeerId
  | .execute sourceId destinationId _ value =>
    k = sourceId ∨ k = destinationId ∧ (n.registry.get sourceId.toNat).map (·.1) = some n.peerID ∧
      ∃ d d', executeTo m.env destinationId value d ≠ executeTo m.env destinationId value d'
  | _ => False

section Differ

variable {m : Sent ι} {n : Node} {k : UInt16}

end Differ

def Sent.Registers (m : Sent ι) (k : UInt16) (v : Data) : Prop :=
  m.request.msg.id = k ∧ m.body = .setKey v ∧
    m.env.verify m.caller.verifyPub m.request.msg m.request.crc m.request.sig = .ok ()

def Sent.Foreign (a : ι) (m : Sent ι) : Prop := m.sender ≠ a ∧ ∃ v, m.body = .setKey v

theorem get_registry_of_registers {m : Sent ι} {k : UInt16} {v : Data} (h : m.Registers k v)
    (n : Node) :
    (m.serve n).registry.get k.toNat = some v := by
  obtain ⟨rfl, hbody, hverify⟩ := h
  rw [Sent.serve, registry_handleShmEvent, hverify, show m.request.msg.body = .setKey v from hbody]
  simp

theorem get_registry_of_not_registers {m : Sent ι} {k : UInt16} (h : ∀ v, ¬m.Registers k v)
    (n : Node) :
    (m.serve n).registry.get k.toNat = n.registry.get k.toNat := by
  rw [Sent.serve, registry_handleShmEvent]
  split
  · rename_i v hbody hverify
    have hne : k.toNat ≠ m.request.msg.id.toNat := fun he =>
      h v ⟨(UInt16.toNat_inj.mp he).symm, hbody, hverify⟩
    rw [OrdMap.get_insert, if_neg hne]
  · rfl

theorem peerID_serve (m : Sent ι) (n : Node) : (m.serve n).peerID = n.peerID :=
  (policy_handleShmEvent m.env m.caller m.request n).1

/-! ## What a caller takes from the registry -/

section Trace

variable [DecidableEq ι] (a : ι)

end Trace

/-- The trace with `setKey` messages of others than `a` deleted or changed. -/
inductive Variant (a : ι) : List (Sent ι) → List (Sent ι) → Prop
  | nil : Variant a [] []
  | keep (m : Sent ι) {t t' : List (Sent ι)} (h : Variant a t t') : Variant a (m :: t) (m :: t')
  | delete {m : Sent ι} (hm : m.Foreign a) {t t' : List (Sent ι)} (h : Variant a t t') :
      Variant a (m :: t) t'
  | change {m m' : Sent ι} (hm : m.Foreign a) (hm' : m'.Foreign a) {t t' : List (Sent ι)}
      (h : Variant a t t') : Variant a (m :: t) (m' :: t')

/-- Whoever registered anything since, `a` has registered the id after it. -/
def Undisturbed (a : ι) (k : UInt16) (t : List (Sent ι)) : Prop :=
  ∀ t₁ f t₂, t = t₁ ++ f :: t₂ → f.Foreign a → ∃ g ∈ t₂, g.sender = a ∧ ∃ v, g.Registers k v

section Variants

variable {a : ι}

theorem Variant.refl : ∀ t : List (Sent ι), Variant a t t
  | [] => .nil
  | m :: t => .keep m (Variant.refl t)

theorem Variant.append {t₁ t₁' t₂ t₂' : List (Sent ι)} (h₁ : Variant a t₁ t₁')
    (h₂ : Variant a t₂ t₂') :
    Variant a (t₁ ++ t₂) (t₁' ++ t₂') := by
  induction h₁ with
  | nil => exact h₂
  | keep m _ ih => exact .keep m ih
  | delete hm _ ih => exact .delete hm ih
  | change hm hm' _ ih => exact .change hm hm' ih

open Classical in
theorem Variant.filter : ∀ t : List (Sent ι), Variant a t (t.filter fun m => ¬m.Foreign a)
  | [] => .nil
  | m :: t => by
    by_cases hm : m.Foreign a
    · rw [List.filter_cons_of_neg (by simpa using hm)]
      exact .delete hm (Variant.filter t)
    · rw [List.filter_cons_of_pos (by simpa using hm)]
      exact .keep m (Variant.filter t)

theorem undisturbed_snoc {k : UInt16} {t : List (Sent ι)} {m : Sent ι}
    (h : Undisturbed a k (t ++ [m])) :
    (m.sender = a ∧ ∃ v, m.Registers k v) ∨ ¬m.Foreign a ∧ Undisturbed a k t := by
  by_cases hown : m.sender = a ∧ ∃ v, m.Registers k v
  · exact .inl hown
  refine .inr ⟨fun hm => ?_, fun t₁ f t₂ ht hf => ?_⟩
  · obtain ⟨g, hg, -⟩ := h t m [] rfl hm
    cases hg
  · obtain ⟨g, hg, hregisters⟩ := h t₁ f (t₂ ++ [m]) (by simp [ht]) hf
    rcases List.mem_append.mp hg with hg | hg
    · exact ⟨g, hg, hregisters⟩
    · cases List.mem_singleton.mp hg
      exact absurd hregisters hown

end Variants

/-! ## Undisturbed uses -/

section Undisturbed

variable {a : ι}

/-- After the part `p` of a trace the two nodes agree on what `a` registered
and nobody disturbed. -/
structure AgreeAfter (a : ι) (p : List (Sent ι)) (n n' : Node) : Prop where
  self : n'.peerID = n.peerID
  entries : ∀ k, Undisturbed a k p → n'.registry.get k.toNat = n.registry.get k.toNat

theorem AgreeAfter.serve {p : List (Sent ι)} {n n' : Node} (h : AgreeAfter a p n n') (m : Sent ι) :
    AgreeAfter a (p ++ [m]) (m.serve n) (m.serve n') := by
  refine ⟨by rw [peerID_serve, peerID_serve, h.self], fun k hk => ?_⟩
  by_cases hregisters : ∃ v, m.Registers k v
  · obtain ⟨v, hv⟩ := hregisters
    rw [get_registry_of_registers hv, get_registry_of_registers hv]
  · have hno : ∀ v, ¬m.Registers k v := fun v hv => hregisters ⟨v, hv⟩
    rw [get_registry_of_not_registers hno, get_registry_of_not_registers hno]
    rcases undisturbed_snoc hk with ⟨-, hown⟩ | ⟨-, hk⟩
    · exact absurd hown hregisters
    · exact h.entries k hk

variable [DecidableEq ι]

/-- Every use of `a` in the trace `t`, served after `p`, is undisturbed. -/
def UsesUndisturbed (a : ι) (n : Node) (p t : List (Sent ι)) : Prop :=
  ∀ t₁ m t₂, t = t₁ ++ m :: t₂ → m.sender = a →
    ∀ k, m.Uses (serveSent n t₁) k → Undisturbed a k (p ++ t₁)

omit [DecidableEq ι] in
theorem UsesUndisturbed.tail {n : Node} {p t : List (Sent ι)} {m : Sent ι}
    (h : UsesUndisturbed a n p (m :: t)) : UsesUndisturbed a (m.serve n) (p ++ [m]) t := by
  intro t₁ m' t₂ ht hm' k hk
  have := h (m :: t₁) m' t₂ (by rw [ht]; rfl) hm' k hk
  rwa [List.append_assoc]

end Undisturbed

/-! ## Disturbed uses -/

section Disturbed

variable {a : ι}

variable [DecidableEq ι]

end Disturbed

/-! ## Interference -/

end KvRaft.Daemon
