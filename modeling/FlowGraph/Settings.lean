import FlowGraph.Pipeline
import FlowGraph.Text.Bytes

/-!
The settings of a pipeline: the names of its passes and how to run them. Any
settings can be held; they make a pipeline only if they are valid.
-/

namespace FlowGraph

structure Settings where
  passes : List String
  maxRounds : Int
  onLimit : String
  verify : Bool
deriving DecidableEq

/-- Why settings make no pipeline. A name is told by its bytes, which need not be text. -/
inductive SettingsFault where
  | rounds (n : Int)
  | policy (name : List UInt8)
  | unknownPass (name : List UInt8)
deriving DecidableEq

def SettingsFault.message : SettingsFault → String
  | rounds n => "max_rounds must be positive, got " ++ toString n
  | policy s => "on_limit: unsupported policy " ++ Text.quotedBytes s
  | unknownPass s => Text.quotedBytes s ++ ": unknown pass"

namespace Settings

/-- The settings that hold where nothing else is said. -/
def default : Settings where
  passes := [emptyBlockElimination.name, unreachableBlockElimination.name]
  maxRounds := defaultMaxRounds
  onLimit := Policy.reject.name
  verify := true

/-- The first fault of settings: the rounds, then the policy, then the passes in order. -/
def fault? (s : Settings) : Option SettingsFault :=
  if s.maxRounds ≤ 0 then some (.rounds s.maxRounds)
  else if (Policy.ofName? s.onLimit).isNone then some (.policy (Text.bytesOf s.onLimit))
  else
    (s.passes.find? (fun n => (registeredPass? n).isNone)).map
      (fun n => .unknownPass (Text.bytesOf n))

/-- The pipeline of valid settings. -/
def pipeline (s : Settings) : Except SettingsFault (Pipeline Graph) :=
  match s.fault? with
  | some f => .error f
  | none =>
    .ok {
      passes := s.passes.filterMap registeredPass?
      maxRounds := s.maxRounds
      onLimit := (Policy.ofName? s.onLimit).getD .reject
      verify := s.verify }

end Settings

/-! ## Drafts -/

/-- Settings whose names are bytes that need not be text. -/
structure Draft where
  passes : List (List UInt8)
  maxRounds : Int
  onLimit : List UInt8
  verify : Bool
deriving DecidableEq

def Settings.draft (s : Settings) : Draft where
  passes := s.passes.map Text.bytesOf
  maxRounds := s.maxRounds
  onLimit := Text.bytesOf s.onLimit
  verify := s.verify

namespace Draft

/-- The name of a policy, if the bytes are one. -/
def policyName? (bytes : List UInt8) : Option String :=
  (Text.ofBytes? bytes).filter (fun s => (Policy.ofName? s).isSome)

/-- The name of a registered pass, if the bytes are one. -/
def passName? (bytes : List UInt8) : Option String :=
  (Text.ofBytes? bytes).filter (fun s => (registeredPass? s).isSome)

/-- The settings of a valid draft. -/
def settings (d : Draft) : Except SettingsFault Settings := do
  if d.maxRounds ≤ 0 then throw (.rounds d.maxRounds)
  let some policy := policyName? d.onLimit | throw (.policy d.onLimit)
  let passes ← d.passes.mapM fun n =>
    match passName? n with
    | some name => .ok name
    | none => .error (.unknownPass n)
  return { passes := passes, maxRounds := d.maxRounds, onLimit := policy, verify := d.verify }

end Draft

end FlowGraph
