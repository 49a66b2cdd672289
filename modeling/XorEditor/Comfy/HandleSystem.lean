import XorEditor.Comfy.HandleHolders

/-!
# Sessions on one handle store

Any number of attempt sessions work on one store.  A step of a run is one critical section
of the lock on the data of the store, or a section of a session's own lock.  The registry
of live sessions only decides which session an attempt is given; here a session may be
opened for any attempt at any time.

* `HandleSystem`, `HandleAction`, `HandleRun`: the states, steps and runs
* `Accounted`, `Reclaimed`: what is shown of a run
-/

namespace XorEditor.Comfy

open Std (ExtTreeMap TransOrd LawfulEqOrd)
open Lib

/-! ### The system -/

/-- A session of an attempt.  While `publishing` is set, a `publish` is between its two
critical sections and holds the lock on the staged identifiers. -/
structure AttemptSession where
  attemptId : AttemptId
  staged : NativeHandleStoreSessionStage
  publishing : Option NativeOpaqueHandle
  deriving DecidableEq, Repr

/-- A call that has taken the staged identifiers and has yet to lock the store. -/
inductive PendingSection where
  | rollback (attemptId : AttemptId) (identifiers : List String)
  | commit (attemptId : AttemptId) (identifiers : List String)
  deriving DecidableEq, Repr

structure HandleSystem (Payload ι : Type) [Ord ι] where
  store : NativeHandleStore Payload ι
  sessions : List AttemptSession
  pending : List PendingSection
  leases : List (List NativeOpaqueHandle)
  resolved : List NativeOpaqueHandle

/-- What can happen next.  Sessions, leases, resolved payloads and pending sections are
given by their place in the lists of the system. -/
inductive HandleAction (Payload : Type) where
  | session (attemptId : AttemptId)
  | publish (index : Nat) (payload : Payload) (cancelled : Bool)
  | finishPublish (index : Nat) (cancelled : Bool)
  | resolve (index : Nat) (handle : NativeOpaqueHandle) (expectedType : NativeHandleType)
      (cancelled : Bool)
  | dropResolved (index : Nat)
  | revoke (index : Nat) (handle : NativeOpaqueHandle) (cancelled : Bool)
  | rollbackFrom (index checkpoint : Nat)
  | rollbackAll (index : Nat)
  | commit (index : Nat)
  | settle (index : Nat)
  | acquireLease (handles : List NativeOpaqueHandle)
  | dropLease (index : Nat)
  | collectUnrootedAttempt (attemptId : AttemptId)

variable {Payload ι : Type} [Ord ι] [TransOrd ι]

def NativeHandleStore.withData (store : NativeHandleStore Payload ι)
    (data : NativeHandleStoreData Payload ι) : NativeHandleStore Payload ι :=
  { store with data }

/-- The critical section of `rollback_from`, `rollback_all` or `commit`. -/
def PendingSection.apply (data : NativeHandleStoreData Payload ι) :
    PendingSection → NativeHandleStoreData Payload ι
  | .rollback attemptId identifiers => identifiers.foldl (.rollbackHandle attemptId) data
  | .commit attemptId identifiers => identifiers.foldl (.commitHandle attemptId) data

variable (s : HandleSystem Payload ι)

namespace HandleSystem

def opened (store : NativeHandleStore Payload ι) : HandleSystem Payload ι :=
  { store, sessions := [], pending := [], leases := [], resolved := [] }

/-- The session, if nobody holds the lock on its staged identifiers. -/
def unlocked (index : Nat) : Option AttemptSession :=
  s.sessions[index]?.filter fun session => session.publishing.isNone

/-- A session method is done. -/
def afterCall (index : Nat) (session : AttemptSession) (access : SessionAccess Payload ι)
    (publishing : Option NativeOpaqueHandle) : HandleSystem Payload ι :=
  { s with
    store := access.store
    sessions := s.sessions.set index { session with staged := access.staged, publishing } }

/-- The session gives away staged identifiers to a call that goes on with them. -/
def takeStaged (index : Nat) (session : AttemptSession) (staged : NativeHandleStoreSessionStage)
    (task : PendingSection) : HandleSystem Payload ι :=
  { s with
    sessions := s.sessions.set index { session with staged }
    pending := s.pending ++ [task] }

/-- A call of `acquire_lease` is done. -/
def afterLease :
    EStateM.Result NativeHandleStoreError (NativeHandleStore Payload ι)
      (Option (List NativeOpaqueHandle)) → HandleSystem Payload ι
  | .ok (some lease) store => { s with store, leases := lease :: s.leases }
  | .ok none store => { s with store }
  | .error _ store => { s with store }

/-- The critical section of a call of `resolve` is done. -/
def afterResolve (handle : NativeOpaqueHandle) :
    EStateM.Result NativeHandleStoreError (NativeHandleStore Payload ι) Unit →
      HandleSystem Payload ι
  | .ok _ store => { s with store, resolved := handle :: s.resolved }
  | .error _ store => { s with store }

/-- The first critical section of a call of `publish` is done. -/
def afterPublish (index : Nat) (session : AttemptSession) :
    EStateM.Result NativeHandleStoreError (SessionAccess Payload ι) NativeOpaqueHandle →
      HandleSystem Payload ι
  | .ok handle access => s.afterCall index session access (some handle)
  | .error _ access => s.afterCall index session access none

variable [DecidableEq ι]

def perform (methods : PayloadMethods Payload ι) (debugAssertions : Bool)
    (s : HandleSystem Payload ι) : HandleAction Payload → Option (HandleSystem Payload ι)
  | .session attemptId =>
    some { s with
      sessions := s.sessions ++ [⟨attemptId, { identifiers := [], closed := false }, none⟩] }
  | .publish index payload cancelled =>
    (s.unlocked index).map fun session =>
      s.afterPublish index session
        (SessionAccess.publish methods session.attemptId payload cancelled
          { store := s.store, staged := session.staged })
  | .finishPublish index cancelled => do
    let session ← s.sessions[index]?
    let handle ← session.publishing
    let access : SessionAccess Payload ι := { store := s.store, staged := session.staged }
    return s.afterCall index session (if cancelled then access.withdraw handle else access) none
  | .resolve index handle expectedType cancelled =>
    s.sessions[index]?.map fun session =>
      s.afterResolve handle
        (NativeHandleStore.resolve methods session.attemptId handle expectedType cancelled
          s.store)
  | .dropResolved index =>
    s.resolved[index]?.map fun handle =>
      { s with
        store := s.store.withData (s.store.data.releaseResolvedRoot debugAssertions handle)
        resolved := s.resolved.eraseIdx index }
  | .revoke index handle cancelled =>
    (s.unlocked index).map fun session =>
      s.afterCall index session
        (Method.after (SessionAccess.revoke session.attemptId handle cancelled)
          { store := s.store, staged := session.staged }) none
  | .rollbackFrom index checkpoint =>
    (s.unlocked index).map fun session =>
      if session.staged.identifiers.length ≤ checkpoint then s
      else
        s.takeStaged index session
          { session.staged with identifiers := session.staged.identifiers.take checkpoint }
          (.rollback session.attemptId (session.staged.identifiers.drop checkpoint))
  | .rollbackAll index =>
    (s.unlocked index).map fun session =>
      s.takeStaged index session { identifiers := [], closed := true }
        (.rollback session.attemptId session.staged.identifiers)
  | .commit index =>
    (s.unlocked index).map fun session =>
      s.takeStaged index session { identifiers := [], closed := true }
        (.commit session.attemptId session.staged.identifiers)
  | .settle index =>
    s.pending[index]?.map fun task =>
      { s with
        store := s.store.withData (task.apply s.store.data)
        pending := s.pending.eraseIdx index }
  | .acquireLease handles =>
    some (s.afterLease (NativeHandleStore.acquireLease handles s.store))
  | .dropLease index =>
    s.leases[index]?.map fun lease =>
      { s with
        store := s.store.withData (s.store.data.releaseRoots lease)
        leases := s.leases.eraseIdx index }
  | .collectUnrootedAttempt attemptId =>
    some { s with store := s.store.withData (s.store.data.collectUnrootedAttempt attemptId) }

def performAll (methods : PayloadMethods Payload ι) (debugAssertions : Bool)
    (s : HandleSystem Payload ι) (actions : List (HandleAction Payload)) :
    Option (HandleSystem Payload ι) :=
  actions.foldlM (perform methods debugAssertions) s

end HandleSystem

/-- A run, with the states it has left and what happened there, newest first. -/
inductive HandleRun [DecidableEq ι] (methods : PayloadMethods Payload ι) (debugAssertions : Bool)
    (start : HandleSystem Payload ι) :
    List (HandleSystem Payload ι × HandleAction Payload) → HandleSystem Payload ι → Prop where
  | start : HandleRun methods debugAssertions start [] start
  | step {past s action t} :
      HandleRun methods debugAssertions start past s →
      s.perform methods debugAssertions action = some t →
      HandleRun methods debugAssertions start ((s, action) :: past) t

/-! ### What is claimed of a state -/

/-- The number of stored handles that name an allocation. -/
def handlesNaming [DecidableEq ι] (values : ExtTreeMap String (StoredNativeHandle Payload ι))
    (id : ι) : Nat :=
  values.toList.countP fun entry => (entry.2.residency.sharedAllocations.map (·.id)).contains id

namespace HandleSystem

/-- The counters of the store say what is stored and held. -/
structure Accounted [DecidableEq ι] (s : HandleSystem Payload ι) : Prop where
  residentBytes : s.store.data.residentBytes = exclusiveBytes s.store.data.values +
      RefCount.footprint (namedAllocations s.store.data.values)
  oneSize : ∀ a ∈ namedAllocations s.store.data.values,
    ∀ b ∈ namedAllocations s.store.data.values, a.1 = b.1 → a = b
  handleReferences : ∀ (id : ι) (stored : StoredResidentAllocation),
    s.store.data.allocations[id]? = some stored →
      stored.handleReferences = handlesNaming s.store.data.values id
  allocated : ∀ id : ι, s.store.data.allocations[id]? = none ↔
    handlesNaming s.store.data.values id = 0
  roots : ∀ (identifier : String) (record : StoredNativeHandle Payload ι),
    s.store.data.values[identifier]? = some record →
      record.roots = s.leases.countP (leaseHolds identifier)
  resolvedRoots : ∀ (identifier : String) (record : StoredNativeHandle Payload ι),
    s.store.data.values[identifier]? = some record →
      record.resolvedRoots = s.resolved.countP (·.identifier == identifier)

/-- No stored handle is retired with nothing holding it. -/
def Reclaimed : Prop :=
  ∀ (identifier : String) (record : StoredNativeHandle Payload ι),
    s.store.data.values[identifier]? = some record → ¬ record.Lingers

/-- The step drops the last resolved payload of a retired handle without leases. -/
def DropsLast : HandleAction Payload → Prop
  | .dropResolved index => ∃ handle, s.resolved[index]? = some handle ∧
      s.store.data.HeldLast handle
  | _ => False

end HandleSystem

end XorEditor.Comfy
