namespace PeerExchange

structure TrustEntry where
  peer : String
  source : String
  priority : Int
deriving DecidableEq

structure TrustPolicy where
  entries : List TrustEntry := []
deriving DecidableEq

namespace TrustPolicy

def set (t : TrustPolicy) (peer source : String) (priority : Int) : TrustPolicy :=
  ⟨⟨peer, source, priority⟩ :: t.entries⟩

def priority (t : TrustPolicy) (peer source : String) : Int :=
  match t.entries.find? fun e => e.peer = peer && e.source = source with
  | some entry => entry.priority
  | none => 1

def distrusts (t : TrustPolicy) (peer source : String) : Bool := t.priority peer source ≤ 0

@[simp] theorem priority_set (t : TrustPolicy) (peer source : String) (p : Int) (x y : String) :
    (t.set peer source p).priority x y = if peer = x ∧ source = y then p else t.priority x y := by
  by_cases equal : peer = x ∧ source = y
  · simp [priority, set, equal]
  · have passed : (decide (peer = x) && decide (source = y)) = false := by simpa using equal
    simp [priority, set, passed, equal]

end TrustPolicy

end PeerExchange
