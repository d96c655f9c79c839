import Gait.Evaluator

/-!
# What can go wrong

Evaluators do not fail: a motion that cannot be found has the value zero. The errors here are those of the finer operations, and
the one failure is what an evaluator does when it was asked to insist.
-/

namespace Gait

/-- Why a playback does not say which joint of which actor moves how. -/
inductive ContextError where
  | missingClip
  | missingActorInstance
  | missingActor
  | noMotionJoint
  deriving DecidableEq, Repr

/-- The words for the reason. -/
def ContextError.message : ContextError → String
  | missingClip => "Invalid clip in playback context"
  | missingActorInstance => "Invalid actor instance in playback context"
  | missingActor => "Actor instance has no actor"
  | noMotionJoint => "Motion extraction joint not found"

/-- Any error of the library. -/
inductive Error where
  /-- A playback leaves something open. -/
  | context (cause : ContextError)
  /-- No evaluator is shown under the name. -/
  | unknownEvaluator (name : String)
  /-- A blend space cannot have so many axes. -/
  | invalidAxisCount (count : Nat)
  deriving DecidableEq, Repr

/-- The words for the error. -/
def Error.message : Error → String
  | context cause => cause.message
  | unknownEvaluator name => "Unknown blend space evaluator: " ++ name
  | invalidAxisCount count => "Blend space needs 1 or 2 axes, got " ++ toString count

/-- A text that is no evaluator's stored name. -/
structure UnknownTag where
  text : String
  deriving DecidableEq, Repr

/-- The words for the error, with all the names that would have done. -/
def UnknownTag.message (e : UnknownTag) : String :=
  let quoted (name : String) : String := "`" ++ name ++ "`"
  "unknown variant " ++ quoted e.text ++ ", expected one of " ++
    ", ".intercalate (Evaluator.all.map fun kind => quoted kind.tag)

/-- An evaluator that insists on its playback was given one that leaves something open. -/
structure AssertionFailure where
  evaluator : Evaluator
  cause : ContextError
  deriving DecidableEq, Repr

/-- The words for the failure. -/
def AssertionFailure.message (f : AssertionFailure) : String := f.evaluator.displayName ++ ": " ++ f.cause.message

/-! ## Evaluators by name -/

/-- The evaluator that is shown under a name. -/
def Evaluator.ofDisplayName (name : String) : Except Error Evaluator :=
  match all.find? (·.displayName == name) with
  | some kind => .ok kind
  | none => .error (.unknownEvaluator name)

/-- The evaluator that is stored under a name. -/
def Evaluator.ofTag (text : String) : Except UnknownTag Evaluator :=
  match all.find? (·.tag == text) with
  | some kind => .ok kind
  | none => .error ⟨text⟩

/-- An evaluator is found under the name it is shown under. -/
theorem Evaluator.ofDisplayName_displayName (e : Evaluator) : ofDisplayName e.displayName = .ok e := by
  have found : all.find? (·.displayName == e.displayName) = some e := by cases e <;> decide +kernel
  rw [ofDisplayName, found]

/-- An evaluator is found under the name it is stored under. -/
theorem Evaluator.ofTag_tag (e : Evaluator) : ofTag e.tag = .ok e := by
  have found : all.find? (·.tag == e.tag) = some e := by cases e <;> decide +kernel
  rw [ofTag, found]

end Gait
