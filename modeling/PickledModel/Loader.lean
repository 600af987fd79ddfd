import PickledModel.Model.Basic
import PickledModel.Stream.Load

/-!
# Opening models

Opening a file as a model with the help of a host, which grants the decoding
capability, supplies the metadata and hears of problems. Opening gives the
result, the loader for the next file, and what the host was told, in order. The
metadata is asked for once; a failure to get it counts as empty metadata.
-/

set_option autoImplicit false

namespace PickledModel

inductive HostError where
  | capabilityUnavailable (name : String)
  | resourceNotFound (file : String)
  | other (text : String)
  deriving DecidableEq, Repr

def HostError.message : HostError → String
  | .capabilityUnavailable name => s!"capability '{name}' is not available"
  | .resourceNotFound file => s!"resource '{file}' not found"
  | .other text => text

structure Host where
  require : String → Except HostError Unit
  request : String → Except HostError String

inductive OpenError where
  | capability (e : HostError)
  | decode (e : LoadError)
  | root (found : Kind)
  deriving DecidableEq, Repr

def OpenError.message : OpenError → String
  | .capability e => e.message
  | .decode e => s!"error loading scikit-learn model: {e.message}"
  | .root found =>
    s!"error loading scikit-learn model: root is a {found.name}, not an estimator"

inductive Event where
  | require (name : String)
  | request (file : String)
  | exception (e : OpenError) (fatal : Bool)
  deriving DecidableEq, Repr

def fileExtension (identifier : String) : String := Text.afterLast '.' identifier

def isModelFile (identifier : String) : Bool :=
  ["pkl", "joblib"].contains (fileExtension identifier)

structure Options where
  previewBudget : Nat
  metadataResource : String
  capability : String

def Options.standard : Options := ⟨10000, "sklearn-metadata.json", "pickle"⟩

structure Loader where
  options : Options
  registry : Registry
  metadata : Option Metadata

structure Opened where
  result : Except OpenError Model
  loader : Loader
  events : List Event

namespace Loader

def standard : Loader := ⟨.standard, .standard, none⟩

def fetchMetadata (host : Host) (file : String) : Metadata :=
  match host.request file with
  | .ok document => (Metadata.parse? document).getD .empty
  | .error _ => .empty

def needMetadata (l : Loader) (host : Host) : Metadata × List Event :=
  match l.metadata with
  | some m => (m, [])
  | none =>
    (fetchMetadata host l.options.metadataResource, [.request l.options.metadataResource])

def assemble (l : Loader) (root : Value) (m : Metadata) : Except OpenError Model :=
  match root.object? with
  | some (typeName, body) => .ok (.ofObject typeName body m l.options.previewBudget)
  | none => .error (.root root.kind)

def openFile (l : Loader) (host : Host) (data : Bytes) : Opened :=
  let asked := Event.require l.options.capability
  match host.require l.options.capability with
  | .error e => ⟨.error (.capability e), l, [asked]⟩
  | .ok () =>
    let (result, machine) := (Machine.ofBytes data).load l.registry
    let told := machine.diagnostics.map fun e => Event.exception (.decode e) false
    match result with
    | .error e => ⟨.error (.decode e), l, asked :: told⟩
    | .ok root =>
      let (m, requests) := l.needMetadata host
      ⟨l.assemble root m, { l with metadata := some m }, asked :: told ++ requests⟩

end Loader

end PickledModel
