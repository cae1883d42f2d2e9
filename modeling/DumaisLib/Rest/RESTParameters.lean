import DumaisLib.Lib.Text

/-!
# Query parameters

The text behind the question mark is read character by character; only the
parameters that are registered get a value.
-/

namespace DumaisLib.Rest

structure RESTParameter where
  mName : Text
  mDescription : Text
  mLocation : Text
  mDefaultValue : Text
  mType : Text
  mRequired : Bool
  deriving DecidableEq

/-- The parameters in the order in which the hash table enumerates them. -/
abbrev ParamMap := List (Text × RESTParameter)

structure RESTParameters where
  mParametersValues : TextMap

namespace RESTParameters

/-- The local variables of the constructor. -/
structure Scan where
  keyFlag : Bool
  key : Text
  value : Text
  mParametersValues : TextMap

namespace Scan

def start : Scan where
  keyFlag := true
  key := []
  value := []
  mParametersValues := ∅

/-- The value is kept when its key is registered. -/
def keep (registeredParams : ParamMap) (scan : Scan) : Scan :=
  if (registeredParams.lookup scan.key).isSome then
    { scan with mParametersValues := scan.mParametersValues.insert scan.key scan.value }
  else scan

/-- The loop body for one character. -/
def read (registeredParams : ParamMap) (scan : Scan) (char : Char) : Scan :=
  if char = '=' then { scan with keyFlag := false }
  else if char = '&' ∨ char = ' ' ∨ char = '\r' ∨ char = '\n' then
    { scan.keep registeredParams with keyFlag := true, key := [], value := [] }
  else if scan.keyFlag then { scan with key := scan.key ++ [char] }
  else { scan with value := scan.value ++ [char] }

/-- "test first if n is legal before reading params": the loop over the characters left. -/
def run (registeredParams : ParamMap) : Scan → Text → Scan
  | scan, [] => scan
  | scan, char :: params =>
      if char = ' ' then scan
      else
        let scan := scan.read registeredParams char
        if params = [] ∨ params.head? = some ' ' ∨ params.head? = some '\r' ∨
            params.head? = some '\n' then
          { scan.keep registeredParams with key := [], value := [] }
        else run registeredParams scan params

end Scan

def create (params : Text) (registeredParams : ParamMap) : RESTParameters where
  mParametersValues := (Scan.start.run registeredParams params).mParametersValues

def getParam (parameters : RESTParameters) (key : Text) : Text :=
  (parameters.mParametersValues.lookup key).getD []

end RESTParameters

end DumaisLib.Rest
