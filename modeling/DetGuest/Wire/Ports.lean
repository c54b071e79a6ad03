import DetGuest.Lib.Exec

/-!
# Port answers

The answer to an `inject_point` query is a fault decision, packed into the `u32` that the
guest reads from the inject port.
-/

namespace Wire

/-- The port of inject queries. -/
def portInject : UInt16 := 0xD384

/-- The largest argument of a fault decision. -/
def faultArgMax : UInt32 := 0x00FFFFFF

/-- The answer to an inject query. -/
inductive FaultDecision where
  | proceed
  | platform (kind : UInt8) (arg : UInt32)
  | workload (kind : UInt8) (arg : UInt32)
  deriving DecidableEq, Repr

/-- The kind in the low byte, and the low 24 bits of the argument above it. -/
def packKind (kind : UInt8) (arg : UInt32) : UInt32 :=
  kind.toUInt32 ||| ((arg &&& faultArgMax) <<< 8)

/-- Pack a decision for the guest. -/
def FaultDecision.pack {ε : Type} (dbg : Bool) (d : FaultDecision) : Res ε UInt32 :=
  match d with
  | .proceed => pure 0
  | .platform kind arg => do
      Res.debugAssert dbg (1 ≤ kind ∧ kind ≤ 63)
      Res.debugAssert dbg (arg ≤ faultArgMax)
      pure (packKind kind arg)
  | .workload kind arg => do
      Res.debugAssert dbg (64 ≤ kind)
      Res.debugAssert dbg (arg ≤ faultArgMax)
      pure (packKind kind arg)

/-- Unpack the answer to an inject query; every number is a decision. -/
def FaultDecision.unpack (v : UInt32) : FaultDecision :=
  let kind := (v &&& 0xFF).toUInt8
  let arg := v >>> 8
  if kind = 0 then .proceed
  else if kind ≤ 63 then .platform kind arg
  else .workload kind arg

end Wire
