import MeasuredBoot.Actor
import MeasuredBoot.EventType

/-!
# Actions

An action is one change of the state of a machine. Steps produce actions, and the log of a TPM keeps for
each command the action that caused it. Two applications of equal actions are still two actions, so each
carries an identity: actions issued by a run are numbered in the order of their issue, while a script
hands out the same actions every time it is executed.
-/
namespace MeasuredBoot

/-- Where a flow was defined. -/
inductive FlowOrigin where
  | shipped
  | supplied
deriving DecidableEq

/-- A flow, by origin and name. -/
structure FlowRef where
  origin : FlowOrigin
  name : String
deriving DecidableEq

/-- One change of the state. -/
inductive Action where
  | setActor (a : Actor)
  | setFlow (f : FlowRef)
  | panic (reason : String)
  | tpmInit (locality : Int)
  | tpmExtend (pcr : Int) (s : Source) (a : Algorithm)
  | logEvent (pcr : Int) (a : Algorithm) (digest : Bytes) (type : EventType) (data : Option Bytes)
  | measure (pcr : Int) (s : Source) (type : EventType) (data : Option Bytes)
  | verifyByPch (s : Source)
  | verifyByPsp (s : Source)

/-- The data of an event at the end of an action's text. -/
def eventDataText (data : Option Bytes) : String :=
  match data with
  | none => ""
  | some b => ", EventData: " ++ b.toHexUpper

def Action.text : Action → String
  | setActor a => "SetActor(" ++ a.name ++ ")"
  | setFlow f => "SetFlow(" ++ f.name ++ ")"
  | panic reason => "Panic(" ++ Text.quoted reason ++ ")"
  | tpmInit locality => "TPMInit(" ++ Text.decimal locality ++ ")"
  | tpmExtend pcr s a =>
    "TPMExtend(PCR: " ++ Text.decimal pcr ++ ", " ++ a.name ++ ", DataSource: " ++ s.text ++ ")"
  | logEvent pcr a digest type data =>
    "TPMEventLogAdd(PCR: " ++ Text.decimal pcr ++ ", " ++ a.name ++ ", Digest: " ++ digest.toHex
      ++ ", Type: " ++ type.name ++ eventDataText data ++ ")"
  | measure pcr s type data =>
    "TPMEvent(PCR: " ++ Text.decimal pcr ++ ", DataSource: " ++ s.text ++ ", Type: " ++ type.name
      ++ eventDataText (data.filter (!·.isEmpty)) ++ ")"
  | verifyByPch s => "SetPCHVerified(" ++ s.text ++ ")"
  | verifyByPsp s => "SetPSPVerified(" ++ s.text ++ ")"

/-- What tells an action from another that does the same. -/
inductive ActionIdentity where
  | issued (n : Nat)
  | scripted (n : Nat)
deriving DecidableEq

/-- An action with its identity. -/
structure IssuedAction where
  identity : ActionIdentity
  action : Action

/-- The place of an action: a flow, a step of it, and an action of the step. -/
structure Coordinates where
  flow : Option FlowRef
  step : Int
  action : Int
deriving DecidableEq

/-- Flow, step and action, separated by colons. -/
def Coordinates.text (c : Coordinates) : String :=
  Text.optional FlowRef.name c.flow ++ ":" ++ Text.decimal c.step ++ ":" ++ Text.decimal c.action

/-- True of two places in one step, or of two missing places. -/
def Coordinates.sameStep : Option Coordinates → Option Coordinates → Bool
  | some c, some d => c.flow = d.flow && c.step = d.step
  | none, none => true
  | _, _ => false

end MeasuredBoot
