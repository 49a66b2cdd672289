import XorEditor.Collaboration.ReadMerge
import Mathlib.Order.MinMax

/-!
# Publishing a read state

A device publishes its read state as a replica in which the registers are brought to a
canonical form: an active register as it is, an inactive one as a tombstone that keeps its
highest counter and nothing else, and a register that was never used not at all.  A device
that loads the replica sees the same contexts as unread, and the tombstones are high enough
to keep out every older register that is merged later.

* `published`: the registers of the published replica
* `published_keeps_meaning`: a device that loads it
-/

namespace XorEditor.Collaboration

open Lib
open Std (ExtTreeMap)

/-! ### Canonical registers -/

namespace ManualUnreadState

/-- The register that is published for a state, if any. -/
def published : ManualUnreadState → Option ManualUnreadRegister
  | .virgin => none
  | .live register => some register
  | .tombstone counter => some (.tombstone counter)

end ManualUnreadState

namespace ManualUnreadRegister

variable {register other : ManualUnreadRegister} {effectiveFrontier : U32}

theorem canonical_of_active (h : register.isActive effectiveFrontier = true) :
    register.canonical effectiveFrontier = .live register := by
  rw [canonical, if_pos h]

theorem canonical_tombstone (counter : U32) : (tombstone counter).canonical effectiveFrontier =
      if counter > 0 then .tombstone counter else .virgin := by
  simp [canonical, tombstone, isActive]

/-- The three things a register can be published as. -/
theorem canonical_cases (register : ManualUnreadRegister) (effectiveFrontier : U32) :
    (register.isActive effectiveFrontier = true ∧
      register.canonical effectiveFrontier = .live register) ∨
    (register.isActive effectiveFrontier = false ∧ 0 < max register.set register.clear ∧
      register.canonical effectiveFrontier = .tombstone (max register.set register.clear)) ∨
    (register.isActive effectiveFrontier = false ∧ max register.set register.clear = 0 ∧
      register.canonical effectiveFrontier = .virgin) := by
  cases hactive : register.isActive effectiveFrontier with
  | true => exact Or.inl ⟨rfl, canonical_of_active hactive⟩
  | false =>
    right
    rw [canonical, hactive, if_neg Bool.false_ne_true]
    by_cases hused : register.set > 0 ∨ register.clear > 0
    · exact Or.inl ⟨rfl, lt_max_iff.mpr hused, if_pos hused⟩
    · rw [not_or, not_lt, not_lt] at hused
      exact Or.inr ⟨rfl, le_antisymm (max_le hused.1 hused.2) (Fin.zero_le _),
        if_neg (by simp [hused])⟩

/-- Publishing a register and reading it again. -/
theorem canonical_published :
    ((register.canonical effectiveFrontier).published.getD default).canonical effectiveFrontier =
      register.canonical effectiveFrontier := by
  obtain ⟨hactive, heq⟩ | ⟨-, hpos, heq⟩ | ⟨-, -, heq⟩ := canonical_cases register effectiveFrontier
  · rw [heq]
    exact heq
  · rw [heq]
    exact (canonical_tombstone _).trans (if_pos hpos)
  · rw [heq]
    exact (canonical_tombstone 0).trans (if_neg (lt_irrefl _))

theorem isActive_eq_of_canonical_eq (h : register.canonical effectiveFrontier =
    other.canonical effectiveFrontier) :
    register.isActive effectiveFrontier = other.isActive effectiveFrontier := by
  obtain ⟨ha, heq⟩ | ⟨ha, -, heq⟩ | ⟨ha, -, heq⟩ := canonical_cases register effectiveFrontier <;>
    obtain ⟨hb, heq'⟩ | ⟨hb, -, heq'⟩ | ⟨hb, -, heq'⟩ := canonical_cases other effectiveFrontier <;>
    simp_all

/-- What is published for an inactive register is not set, and it is counted as far. -/
theorem published_of_inactive (h : register.isActive effectiveFrontier = false) :
    (register.canonical effectiveFrontier).published.getD default =
      .tombstone (max register.set register.clear) := by
  obtain ⟨hactive, -⟩ | ⟨-, -, heq⟩ | ⟨-, hzero, heq⟩ := canonical_cases register effectiveFrontier
  · rw [h] at hactive
    cases hactive
  · rw [heq]
    rfl
  · rw [heq, hzero]
    rfl

/-- A register that is not set beyond its tombstone stays inactive. -/
theorem isActive_merge_tombstone {counter : U32} (h : other.set ≤ counter) :
    ((tombstone counter) ⊔ other).isActive effectiveFrontier = false := by
  have hset : ((tombstone counter) ⊔ other).set = other.set := max_eq_right (Fin.zero_le _)
  have hclear : counter ≤ ((tombstone counter) ⊔ other).clear := le_max_left _ _
  simp [isActive, hset, not_lt.mpr (h.trans hclear)]

end ManualUnreadRegister

/-! ### The published replica -/

def OwnerReadStateReplica.register (self : OwnerReadStateReplica) (context : ReadContextId) :
    ManualUnreadRegister :=
  self.overrides[context]?.getD default

namespace ReadState

variable {s s' : ReadState} {replica other : OwnerReadStateReplica} {owner : PrincipalId}
  {parents : Parents}

theorem register_sup (s : ReadState) (replica : OwnerReadStateReplica) (context : ReadContextId) :
    (s.withContent (s.content ⊔ replica.content)).register context =
      s.register context ⊔ replica.register context := by
  change (s.overrides ⊔ replica.overrides)[context]?.getD default = _
  rw [JoinMap.getElem?_sup, register, OwnerReadStateReplica.register]
  have hbot (a : ManualUnreadRegister) : a ⊔ default = a := sup_eq_left.mpr (default_le a)
  have hbot' (a : ManualUnreadRegister) : default ⊔ a = a := sup_eq_right.mpr (default_le a)
  cases s.overrides[context]? <;> cases replica.overrides[context]? <;> simp [hbot, hbot']

/-- What a context's register says under the parent it is published with. -/
def stateUnder (self : ReadState) (parents : Parents) (context : ReadContextId)
    (register : ManualUnreadRegister) : ManualUnreadState :=
  register.canonical (self.effectiveFrontierUnchecked context parents[context]?)

theorem getElem?_published (s : ReadState) (parents : Parents) (context : ReadContextId) :
    (s.overrides.toList.foldl (s.publishOverride parents) ∅)[context]? =
      s.overrides[context]?.bind fun register =>
        (s.stateUnder parents context register).published := by
  apply MapEntries.getElem?_foldl_write_toList
    fun entry => (s.stateUnder parents entry.1 entry.2).published
  rintro overrides ⟨context, register⟩
  unfold publishOverride stateUnder
  dsimp only
  cases register.canonical _ <;> rfl

theorem requireCompleteOwner_eq_ok_iff {done : Unit} : s.requireCompleteOwner owner = .ok done ↔
      s.scope.ownerPrincipalId = owner ∧ s.completeness = .complete := by
  unfold requireCompleteOwner requireOwner
  rw [Method.result_bind_eq_ok_iff]
  by_cases howner : s.scope.ownerPrincipalId = owner
  · by_cases hcomplete : s.completeness = .complete
    · simp [howner, hcomplete, pure, Except.pure]
    · simp [howner, hcomplete, throw, throwThe, MonadExceptOf.throw]
  · simp [howner]

theorem canonicalReplica_eq_ok_iff : s.canonicalReplica owner parents = .ok replica ↔
      s.scope.ownerPrincipalId = owner ∧ s.completeness = .complete ∧ replica.scope = s.scope ∧
        replica.frontiers = s.frontiers ∧
        ∀ context, replica.overrides[context]? = s.overrides[context]?.bind fun register =>
          (s.stateUnder parents context register).published := by
  unfold canonicalReplica
  rw [Method.result_bind_eq_ok_iff]
  simp only [requireCompleteOwner_eq_ok_iff, new_toList_eq_ok_iff, OwnerReadStateReplica.content,
    Prod.mk.injEq, ← getElem?_published]
  constructor
  · rintro ⟨-, ⟨howner, hcomplete⟩, -, hscope, hfrontiers, hoverrides⟩
    exact ⟨howner, hcomplete, hscope, hfrontiers, fun context => by rw [hoverrides]⟩
  · rintro ⟨howner, hcomplete, hscope, hfrontiers, hoverrides⟩
    exact ⟨(), ⟨howner, hcomplete⟩, howner, hscope, hfrontiers,
      ExtTreeMap.ext_getElem? fun {context} => hoverrides context⟩

variable (completeness : ReadStateCompleteness)

/-- The state of a device that has loaded one replica. -/
def ofReplica (replica : OwnerReadStateReplica) : ReadState :=
  ⟨replica.scope, completeness, replica.frontiers, replica.overrides⟩

theorem fromReplicas_singleton (replica : OwnerReadStateReplica) :
    fromReplicas replica.scope completeness [replica] = .ok (ofReplica completeness replica) := by
  have hmerge : merge replica (empty replica.scope completeness) =
      .ok () (ofReplica completeness replica) := by
    refine merge_eq_ok_iff.mpr ⟨rfl, ?_⟩
    have hsup : (empty replica.scope completeness).content ⊔ replica.content = replica.content :=
      sup_eq_right.mpr (empty_content_le _ _ _)
    rw [hsup]
    rfl
  unfold fromReplicas
  simp [hmerge]

section Published

variable (h : s.canonicalReplica owner parents = .ok replica)
include h

theorem register_published (context : ReadContextId) : replica.register context =
      (s.stateUnder parents context (s.register context)).published.getD default := by
  obtain ⟨-, -, -, -, hoverrides⟩ := canonicalReplica_eq_ok_iff.mp h
  rw [OwnerReadStateReplica.register, hoverrides, register]
  cases s.overrides[context]? with
  | some register => rfl
  | none => rfl

theorem effectiveFrontier_published (completeness : ReadStateCompleteness)
    (context : ReadContextId) (parent : Option ReadContextId) :
    (ofReplica completeness replica).effectiveFrontierUnchecked context parent =
      s.effectiveFrontierUnchecked context parent := by
  obtain ⟨-, -, -, hfrontiers, -⟩ := canonicalReplica_eq_ok_iff.mp h
  unfold effectiveFrontierUnchecked ofReplica
  rw [hfrontiers]

theorem isUnread_published (completeness : ReadStateCompleteness) (viewer : PrincipalId)
    (context : ReadContextId) (latestMessageAt : U32) :
    (ofReplica completeness replica).isUnread viewer context parents[context]? latestMessageAt =
      s.isUnread viewer context parents[context]? latestMessageAt := by
  obtain ⟨-, -, hscope, -, -⟩ := canonicalReplica_eq_ok_iff.mp h
  have hany (t : ReadState) (frontier : U32) :
      t.overrides[context]?.any (·.isActive frontier) = (t.register context).isActive frontier := by
    unfold register
    cases t.overrides[context]? <;> rfl
  have hactive : ((ofReplica completeness replica).register context).isActive _ = _ :=
    ManualUnreadRegister.isActive_eq_of_canonical_eq
      (register_published h context ▸ ManualUnreadRegister.canonical_published)
  have howner : (ofReplica completeness replica).requireOwner viewer = s.requireOwner viewer := by
    unfold requireOwner ofReplica
    rw [hscope]
  unfold isUnread
  simp only [effectiveFrontier_published h, hany, hactive, howner]

/-- A replica that was published once is published unchanged. -/
theorem canonicalReplica_published :
    (ofReplica .complete replica).canonicalReplica owner parents = .ok replica := by
  obtain ⟨howner, -, hscope, -, hoverrides⟩ := canonicalReplica_eq_ok_iff.mp h
  rw [canonicalReplica_eq_ok_iff]
  refine ⟨(congrArg _ hscope).trans howner, rfl, rfl, rfl, fun context => ?_⟩
  change replica.overrides[context]? = replica.overrides[context]?.bind _
  cases hpublished : replica.overrides[context]? with
  | none => rfl
  | some register =>
    have hregister := hoverrides context
    rw [hpublished] at hregister
    obtain ⟨original, -, horiginal⟩ := Option.bind_eq_some_iff.mp hregister.symm
    have hread := @ManualUnreadRegister.canonical_published original
      (s.effectiveFrontierUnchecked context parents[context]?)
    rw [stateUnder] at horiginal
    rw [horiginal, Option.getD_some] at hread
    rw [Option.bind_some, stateUnder, effectiveFrontier_published h, hread, horiginal]

/-- An older register that comes in later finds the tombstone. -/
theorem isActive_merge_published {completeness : ReadStateCompleteness} {context : ReadContextId}
    {effectiveFrontier : U32} (hinactive : (s.register context).isActive
      (s.effectiveFrontierUnchecked context parents[context]?) = false)
    (hmerge : merge other (ofReplica completeness replica) = .ok () s')
    (hset : (other.register context).set ≤
      max (s.register context).set (s.register context).clear) :
    (s'.register context).isActive effectiveFrontier = false := by
  obtain ⟨-, rfl⟩ := merge_eq_ok_iff.mp hmerge
  have htombstone : (ofReplica completeness replica).register context =
      .tombstone (max (s.register context).set (s.register context).clear) :=
    (register_published h context).trans (ManualUnreadRegister.published_of_inactive hinactive)
  rw [register_sup, htombstone]
  exact ManualUnreadRegister.isActive_merge_tombstone hset

end Published

/-- **Publishing a read state keeps what it says, and what it has cleared stays cleared.** -/
theorem published_keeps_meaning (h : s.canonicalReplica owner parents = .ok replica) :
    ∃ loaded, fromReplicas s.scope completeness [replica] = .ok loaded ∧
      (∀ viewer context latestMessageAt,
        loaded.isUnread viewer context parents[context]? latestMessageAt =
          s.isUnread viewer context parents[context]? latestMessageAt) ∧
      (completeness = .complete → loaded.canonicalReplica owner parents = .ok replica) ∧
      ∀ context, (s.register context).isActive
          (s.effectiveFrontierUnchecked context parents[context]?) = false →
        ∀ other merged, merge other loaded = .ok () merged → (other.register context).set ≤
            max (s.register context).set (s.register context).clear →
          (merged.register context).isActive
            (merged.effectiveFrontierUnchecked context parents[context]?) = false := by
  obtain ⟨-, -, hscope, -, -⟩ := canonicalReplica_eq_ok_iff.mp h
  refine ⟨ofReplica completeness replica, hscope ▸ fromReplicas_singleton completeness replica,
    isUnread_published h completeness, ?_, ?_⟩
  · rintro rfl
    exact canonicalReplica_published h
  · intro context hinactive other merged hmerge hset
    exact isActive_merge_published h hinactive hmerge hset

/-- The thread has been marked read after it was marked unread. -/
def readBelowChannel : ReadState :=
  Method.after (perform (.markRead ⟨1⟩ thread (some channel) 12)) unreadBelowChannel

/-- A device loads what is published for the thread and then the snapshot from before it was
marked read; the thread stays read. -/
theorem published_readBelowChannel : ∃ replica older loaded merged,
    readBelowChannel.canonicalReplica ⟨1⟩ (ExtTreeMap.ofList [(thread, channel)]) = .ok replica ∧
      unreadBelowChannel.asReplica = .ok older ∧
      fromReplicas ownerScope .complete [replica] = .ok loaded ∧
      merge older loaded = .ok () merged ∧
      loaded.isUnread ⟨1⟩ thread (some channel) 0 = .ok false ∧
      (merged.register thread).isActive
        (merged.effectiveFrontierUnchecked thread (some channel)) = false := by
  let parents : Parents := ExtTreeMap.ofList [(thread, channel)]
  have hparent : parents[thread]? = some channel := by decide +kernel
  have hok : (readBelowChannel.canonicalReplica ⟨1⟩ parents).isOk = true := by decide +kernel
  have hok' : unreadBelowChannel.asReplica.isOk = true := by decide +kernel
  obtain ⟨replica, hreplica⟩ := Method.exists_of_isOk hok
  obtain ⟨older, holder⟩ := Method.exists_of_isOk hok'
  obtain ⟨holderScope, holderContent⟩ := content_of_asReplica holder
  have hregister : older.register thread = unreadBelowChannel.register thread := by
    have hoverrides : older.overrides = unreadBelowChannel.overrides :=
      (Prod.mk.inj holderContent).2
    rw [OwnerReadStateReplica.register, hoverrides, register]
  have hscope := (canonicalReplica_eq_ok_iff.mp hreplica).2.2.1
  have hsame : unreadBelowChannel.scope = readBelowChannel.scope := by decide +kernel
  obtain ⟨loaded, hloaded, hunread, -, hcleared⟩ := published_keeps_meaning .complete hreplica
  obtain rfl : loaded = ofReplica .complete replica := by
    have hsingle := fromReplicas_singleton .complete replica
    rw [hscope, hloaded] at hsingle
    exact Except.ok.inj hsingle
  have hmerge : merge older (ofReplica .complete replica) = .ok () _ :=
    merge_eq_ok_iff.mpr ⟨holderScope.trans (hsame.trans hscope.symm), rfl⟩
  refine ⟨replica, older, _, _, hreplica, holder, hloaded, hmerge, ?_, ?_⟩
  · have hthread := hunread ⟨1⟩ thread 0
    rw [hparent] at hthread
    rw [hthread]
    decide +kernel
  · have hthread := hcleared thread (by decide +kernel) older _ hmerge (by
      rw [hregister]
      decide +kernel)
    rwa [hparent] at hthread

end ReadState
end XorEditor.Collaboration
