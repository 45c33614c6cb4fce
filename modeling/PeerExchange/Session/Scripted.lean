import PeerExchange.Session.Basic

namespace PeerExchange

structure Script where
  changes : List Nat := []

namespace Script

def evaluate : Run Script Nat := do
  match (← get).changes with
  | [] => return 0
  | n :: rest =>
    set (Script.mk rest)
    return n

def session : Session Script where
  evaluate _ _ := evaluate
  batch _ := pure ()
  start := pure ()
  commit := pure ()
  rollback := pure ()
  load _ _ rows := pure rows.length
  query _ _ := pure []

end Script

end PeerExchange
