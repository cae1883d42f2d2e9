import DumaisLib.JSON.Building
import DumaisLib.Rest.RESTParameters

/-!
# Callbacks

A callback describes its parameters, checks that the required ones are given and
runs what the application has bound to it.
-/

namespace DumaisLib.JSON

/-- A child is added, and filled through the reference that the call returns. -/
def Node.addFilled (addition : Addition) (fill : Node → Node) : Node → Node
  | .Object mMembers =>
      .Object (assign (keyFor addition.name mMembers) (fill addition.node) mMembers)
  | .List mMembers => .List (mMembers ++ [fill addition.node])
  | .Value mValue mSubType => .Value mValue mSubType

/-- `addValue` of a string. -/
def Node.addString (value name : Text) : Node → Node :=
  Node.add (.addValue (.string value) name)

end DumaisLib.JSON

namespace DumaisLib.Rest

open DumaisLib.JSON

inductive ResponseCode where
  | OK
  | Created
  | Accepted
  | BadRequest
  | Forbidden
  | NotFound
  | MethodNotAllowed
  | NotImplemented
  | ServiceUnavailable
  deriving DecidableEq

/-- What a bound function is given; `returnData` and `responseCode` are references. -/
structure RESTContext (Data : Type) where
  returnData : Node
  params : RESTParameters
  data : Text
  smatch : List Text
  responseCode : ResponseCode
  userData : Option Data

/-- `mCallback` returns what it leaves in `returnData` and `responseCode`. -/
structure RESTCallBack (Data : Type) where
  mCallback : RESTContext Data → Node × ResponseCode
  mParamList : ParamMap
  mDescription : Text

namespace RESTCallBack

variable {Data : Type} (callback : RESTCallBack Data)

/-- The first of two parameters of one name stays. -/
def addParam (paramName description : Text) (required : Bool) (type location defaultValue : Text) :
    RESTCallBack Data :=
  if (callback.mParamList.lookup paramName).isSome then callback
  else
    { callback with
      mParamList := callback.mParamList ++
        [(paramName, ⟨paramName, description, location, defaultValue, type, required⟩)] }

def getDescription (json : Node) : Node :=
  let described := json.addString callback.mDescription "description".toList
  let describe (params : Node) (param : Text × RESTParameter) : Node :=
    params.addFilled (.addObject "param".toList) fun j =>
      (j.addString param.1 "name".toList).addString param.2.mDescription "description".toList
  described.addFilled (.addList "params".toList) fun params =>
    callback.mParamList.foldl describe params

def getSwaggerDescription (json : Node) : Node :=
  let described := (json.addString callback.mDescription "summary".toList).addString
    callback.mDescription "description".toList
  let describe (params : Node) (param : Text × RESTParameter) : Node :=
    params.addFilled (.addObject "param".toList) fun j =>
      let j := j.addString param.1 "name".toList
      let j := j.addString param.2.mDescription "description".toList
      let j := j.addString param.2.mType "type".toList
      let j := j.addString param.2.mLocation "in".toList
      let j := j.add (.addValue (.bool param.2.mRequired) "required".toList)
      if param.2.mDefaultValue = [] then j
      else j.addString param.2.mDefaultValue "default".toList
  if callback.mParamList = [] then described
  else
    described.addFilled (.addList "parameters".toList) fun params =>
      callback.mParamList.foldl describe params

/-- The first required query parameter that is not given. -/
def missing (params : RESTParameters) : Option Text :=
  (callback.mParamList.find? fun param =>
    param.2.mRequired && param.2.mLocation = "query".toList && params.getParam param.1 = []).map
      Prod.fst

def call (json : Node) (paramString dataString : Text) (smatch : List Text)
    (userData : Option Data) : Node × ResponseCode :=
  let params := RESTParameters.create paramString callback.mParamList
  match callback.missing params with
  | some name =>
      (json.addString ("Missing required parameter ".toList ++ name) "error".toList, .BadRequest)
  | none => callback.mCallback ⟨json, params, dataString, smatch, .OK, userData⟩

end RESTCallBack

end DumaisLib.Rest
