/-! # Requests to the cloud

* `Operation`: what is asked of a service, with the members that the request carries.
* `Request`: an operation in a region.
* `Operation.name`, `Operation.members`: the service's own names for them.
-/

set_option autoImplicit false

namespace MountMatrix

inductive Operation where
  | createSecret (name value : String)
  /-- Deletion by name or identifier; a forced one leaves no time in which to recover. -/
  | deleteSecret (id : String) (force : Bool)
  /-- A parameter of the given type, which may be allowed to replace an older one. -/
  | putParameter (name value type : String) (overwrite : Bool)
  | deleteParameter (name : String)
  /-- A page of a repository's images: those with the tag, if one is given, and the page that the
  token stands for, if there is one. -/
  | describeImages (repository : String) (tag token : Option String)
  deriving DecidableEq

structure Request where
  region : String
  operation : Operation
  deriving DecidableEq

inductive Member where
  | text (value : String)
  | flag (value : Bool)
  | imageTag (tag : String)
  deriving DecidableEq

namespace Operation

def name : Operation → String
  | createSecret _ _ => "CreateSecret"
  | deleteSecret _ _ => "DeleteSecret"
  | putParameter _ _ _ _ => "PutParameter"
  | deleteParameter _ => "DeleteParameter"
  | describeImages _ _ _ => "DescribeImages"

def members : Operation → List (String × Member)
  | createSecret name value => [("Name", .text name), ("SecretString", .text value)]
  | deleteSecret id force =>
    [("ForceDeleteWithoutRecovery", .flag force), ("SecretId", .text id)]
  | putParameter name value type overwrite =>
    [("Name", .text name), ("Overwrite", .flag overwrite), ("Type", .text type),
     ("Value", .text value)]
  | deleteParameter name => [("Name", .text name)]
  | describeImages repository tag token =>
    [("repositoryName", .text repository)] ++
      (tag.map fun tag => ("imageIds", Member.imageTag tag)).toList ++
      (token.map fun token => ("nextToken", Member.text token)).toList

end Operation

end MountMatrix
