import MeasuredBoot.Action

/-!
# Evidence

What a boot has measured or verified: the data, who did it, on whose behalf, where the data came from and
by which action.
-/
namespace MeasuredBoot

/-- Data that were measured into a register, or verified. -/
structure Evidence where
  data : Data
  /-- The part that holds the evidence; a measurement that is only conjectured may lack one. -/
  chain : Option Part
  actor : Option Actor
  source : Source
  action : Option IssuedAction

namespace Evidence

def measuredKind : String := "MeasuredData"

def verifiedKind : String := "VerifiedData"

/-- The name of the kind of the part that holds the evidence. -/
def chainName (e : Evidence) : String := (e.chain.map Part.kindName).getD "NoneType"

def actorName (e : Evidence) : String := Text.optional Actor.name e.actor

def text (kind : String) (e : Evidence) : String :=
  kind ++ "(" ++ e.data.text ++ " by " ++ e.chainName ++ ", actor " ++ e.actorName ++ ")"

def document (e : Evidence) : Text.Json := .object [
  ("data", e.data.document), ("trust_chain", .str e.chainName), ("actor", .str e.actorName),
  ("data_source", .str e.source.text)]

/-- The references of several pieces of evidence. -/
def referencesOf (es : List Evidence) : References := es.flatMap (·.data.references)

end Evidence
end MeasuredBoot
