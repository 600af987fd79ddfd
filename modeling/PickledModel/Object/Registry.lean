import PickledModel.Object.Array

/-!
# Object types

How the objects of known type names are built from their arguments and given
their states. A registry gives the builder of each type name that it knows.
-/

set_option autoImplicit false

namespace PickledModel

inductive Builder where
  | descriptor
  | wrappedArray
  | inlinedArray
  | tree
  | attributes
  deriving DecidableEq, Repr

def TreeBody.make (args : List Value) : TreeBody Value where
  featureCount := args[0]?.getD .none
  classCounts := args[1]?.getD .none
  outputCount := args[2]?.getD .none
  maxDepth := .none
  nodeCount := .none
  nodes := .none
  values := .none

def TreeBody.restore (t : TreeBody Value) (typeName : String) (state : Value) :
    Except LoadError (TreeBody Value) :=
  if state.kind = .dict then
    .ok { t with
      maxDepth := (state.get? "max_depth").getD .none
      nodeCount := (state.get? "node_count").getD .none
      nodes := (state.get? "nodes").getD .none
      values := (state.get? "values").getD .none }
  else .error (.malformedState typeName (.notDict state.kind))

def setAttributes (typeName : String) :
    List (Value × Value) → Process (List (String × Value)) Unit
  | [] => pure ()
  | (k, v) :: entries => do
    match k.string? with
    | some name => modify (Members.set name v)
    | none => throw (.malformedState typeName (.attributeName k.kind))
    setAttributes typeName entries

def mergeState (typeName : String) : Value → Process (List (String × Value)) Unit
  | .none => pure ()
  | .dict entries => setAttributes typeName entries
  | .tuple [state, slots] => do
    mergeState typeName state
    mergeState typeName slots
  | v => throw (.malformedState typeName (.notDict v.kind))

namespace Builder

def make : Builder → List Value → Except LoadError (Body Value)
  | .descriptor, args => .descriptor <$> Descriptor.make args
  | .wrappedArray, args => .ok (.array (.make .wrapped args))
  | .inlinedArray, args => .ok (.array (.make .inlined args))
  | .tree, args => .ok (.tree (.make args))
  | .attributes, _ => .ok (.attributes [])

end Builder

/-- Gives an object its state. The state of an object of unknown type is ignored,
and only a wrapped array reads from the stream. -/
def Body.restore (typeName : String) (state : Value) : Process (Body Value × Cursor) Unit :=
  fun (body, c) =>
    match body with
    | .descriptor d =>
      match d.restore state with
      | .ok d => (.ok (), .descriptor d, c)
      | .error e => (.error e, .descriptor d, c)
    | .array a =>
      let (r, a, c) := (ArrayBody.restore typeName state).start (a, c)
      (r, .array a, c)
    | .tree t =>
      match t.restore typeName state with
      | .ok t => (.ok (), .tree t, c)
      | .error e => (.error e, .tree t, c)
    | .attributes entries =>
      let (r, entries) := (mergeState typeName state).start entries
      (r, .attributes entries, c)
    | .unresolved => (.ok (), .unresolved, c)

structure Registry where
  builders : List (String × Builder)

namespace Registry

def empty : Registry := ⟨[]⟩

def register (r : Registry) (typeName : String) (b : Builder) : Registry :=
  ⟨Members.set typeName b r.builders⟩

def resolve? (r : Registry) (typeName : String) : Option Builder :=
  Members.get? typeName r.builders

def estimators : List String :=
  ["sklearn.linear_model.LogisticRegression",
    "sklearn.linear_model.logistic.LogisticRegression",
    "sklearn.linear_model._logistic.LogisticRegression",
    "sklearn.naive_bayes.GaussianNB",
    "sklearn.preprocessing.data.Binarizer",
    "sklearn.preprocessing._data.Binarizer",
    "sklearn.svm.classes.SVC",
    "sklearn.svm._classes.SVC",
    "sklearn.tree.tree.DecisionTreeClassifier",
    "sklearn.tree._classes.DecisionTreeClassifier",
    "sklearn.tree.tree.ExtraTreeClassifier",
    "sklearn.tree._classes.ExtraTreeClassifier",
    "sklearn.ensemble.forest.RandomForestClassifier",
    "sklearn.ensemble._forest.RandomForestClassifier",
    "sklearn.ensemble.forest.ExtraTreesClassifier",
    "sklearn.ensemble._forest.ExtraTreesClassifier",
    "sklearn.ensemble.weight_boosting.AdaBoostClassifier",
    "sklearn.ensemble._weight_boosting.AdaBoostClassifier"]

def standard : Registry where
  builders :=
    [(descriptorTypeName, .descriptor),
      ("numpy.core.multiarray._reconstruct", .inlinedArray),
      ("numpy._core.multiarray._reconstruct", .inlinedArray),
      ("joblib.numpy_pickle.NumpyArrayWrapper", .wrappedArray),
      ("sklearn.externals.joblib.numpy_pickle.NumpyArrayWrapper", .wrappedArray),
      ("sklearn.tree._tree.Tree", .tree)] ++ estimators.map (·, .attributes)

end Registry

end PickledModel
