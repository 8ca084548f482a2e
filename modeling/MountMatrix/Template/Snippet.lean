import MountMatrix.Variant

/-! # Shell blocks

The multi-line blocks of shell that stand in a generated suite, each of which depends on the
variant's authentication mode or on how the provider is installed. No block ends in a newline, and
a block that a suite does not need is empty.
-/

set_option autoImplicit false

namespace MountMatrix

structure InstallOptions where
  /-- Through the cluster's addon, instead of a chart and the provider's manifest. -/
  addon : Bool := false
  /-- The addon version asked for; without the addon it has no effect. -/
  addonVersion : Option String := none
  deriving DecidableEq

namespace Snippet

def block (lines : List String) : String :=
  "\n".intercalate lines

def authSetup (v : Variant) : String :=
  match v.auth with
  | .irsa => block
      ["\tlog \"Associating IAM OIDC provider\"",
       "\teksctl utils associate-iam-oidc-provider --cluster $CLUSTER_NAME --approve " ++
         "--region $REGION >&3 2>&1",
       "",
       "\tlog \"Creating IAM service account for IRSA\"",
       "\teksctl create iamserviceaccount \\",
       "\t\t--name " ++ v.serviceAccount ++ " \\",
       "\t\t--namespace $NAMESPACE \\",
       "\t\t--cluster $CLUSTER_NAME \\",
       "\t\t--attach-policy-arn arn:aws:iam::aws:policy/AmazonSSMReadOnlyAccess \\",
       "\t\t--attach-policy-arn " ++
         "arn:aws:iam::aws:policy/AWSSecretsManagerClientReadOnlyAccess \\",
       "\t\t--override-existing-serviceaccounts \\",
       "\t\t--approve \\",
       "\t\t--region $REGION >&3 2>&1"]
  | .podIdentity => block
      ["\tlog \"Creating EKS Pod Identity addon\"",
       "\teksctl create addon --name eks-pod-identity-agent --cluster $CLUSTER_NAME " ++
         "--region $REGION >&3 2>&1",
       "",
       "\tlog \"Creating Pod Identity association\"",
       "\teksctl create podidentityassociation \\",
       "\t\t--cluster $CLUSTER_NAME \\",
       "\t\t--namespace $NAMESPACE \\",
       "\t\t--region $REGION \\",
       "\t\t--service-account-name " ++ v.serviceAccount ++ " \\",
       "\t\t--role-arn $POD_IDENTITY_ROLE_ARN \\",
       "\t\t--create-service-account true >&3 2>&1"]

def teardownCleanup (v : Variant) : String :=
  match v.auth with
  | .irsa => ""
  | .podIdentity => block
      ["\tlog \"Deleting Pod Identity association\"",
       "\teksctl delete podidentityassociation --cluster $CLUSTER_NAME " ++
         "--namespace $NAMESPACE --service-account-name " ++ v.serviceAccount ++
         " --region $REGION >&3 2>&1 || true"]

def versionFlag (options : InstallOptions) : String :=
  match options.addonVersion with
  | some version => " --addon-version " ++ version
  | none => ""

def installMethod (v : Variant) (options : InstallOptions) : String :=
  if options.addon then block
      ["\tlog \"Installing AWS Secrets Store CSI Driver Provider via EKS addon\"",
       "\taws eks create-addon --cluster-name $CLUSTER_NAME " ++
         "--addon-name aws-secrets-store-csi-driver-provider " ++
         "--configuration-values \"file://addon_config_values.yaml\"" ++ versionFlag options ++
         " --region $REGION >&3 2>&1"]
  else block
      ["\tlog \"Adding secrets-store-csi-driver Helm repository\"",
       "\thelm repo add secrets-store-csi-driver " ++
         "https://kubernetes-sigs.github.io/secrets-store-csi-driver/charts",
       "",
       "\tlog \"Installing secrets-store-csi-driver via Helm\"",
       "\thelm --kubeconfig=$" ++ v.kubeconfigVar ++ " --namespace=$NAMESPACE " ++
         "install csi-secrets-store secrets-store-csi-driver/secrets-store-csi-driver " ++
         "--set enableSecretRotation=true --set rotationPollInterval=15s " ++
         "--set syncSecret.enabled=true",
       "\tif [[ $? -ne 0 ]]; then",
       "\t\techo \"Error: Helm install failed\" >&2",
       "\t\treturn 1",
       "\tfi"]

def podIdentityParam (v : Variant) : String :=
  match v.auth with
  | .podIdentity => "\n    usePodIdentity: \"true\""
  | .irsa => ""

/-- Refuses to run without a private repository. The addon brings an image of its own. -/
def privrepoCheck (options : InstallOptions) : String :=
  if options.addon then ""
  else block
      ["if [[ -z \"$\x7bPRIVREPO\x7d\" ]]; then",
       "\techo \"Error: PRIVREPO is not specified\" >&2",
       "\treturn 1",
       "fi"]

/-- The test that installs the provider from its manifest, which the addon makes unnecessary. -/
def installProviderTest (v : Variant) (options : InstallOptions) : String :=
  if options.addon then ""
  else block
      ["@test \"Install aws provider\" \x7b",
       "\tlog \"Installing AWS provider\"",
       "",
       "\tenvsubst < $PROVIDER_YAML | kubectl --kubeconfig=$" ++ v.kubeconfigVar ++ " apply -f -",
       "\tcmd=\"kubectl --kubeconfig=$" ++ v.kubeconfigVar ++ " --namespace $NAMESPACE wait " ++
         "--for=condition=Ready --timeout=60s pod -l app=csi-secrets-store-provider-aws\"",
       "\twait_for_process $WAIT_TIME $SLEEP_TIME \"$cmd\"",
       "",
       "\tPROVIDER_POD=$(kubectl --kubeconfig=$" ++ v.kubeconfigVar ++ " --namespace $NAMESPACE " ++
         "get pod -l app=csi-secrets-store-provider-aws " ++
         "-o jsonpath=\"\x7b.items[0].metadata.name\x7d\")",
       "\trun kubectl --kubeconfig=$" ++ v.kubeconfigVar ++
         " --namespace $NAMESPACE get pod/$PROVIDER_POD",
       "\tassert_success",
       "",
       "\tlog \"AWS provider installation completed\"",
       "\x7d"]

end Snippet

end MountMatrix
