/-
# Snapshots

How names, elements, documents, projects, options and change records stand in a file: a
shape to read each from, and a tree to write each as.

| value | members |
| --- | --- |
| name | `namespace` (if not empty), `local_name` |
| element | `name`, `children` (if there are any) |
| document | `root` |
| project | `target_frameworks`, `append_target_framework_to_output_path`, `document`, `namespace` |
| options | `target_frameworks`, `append_target_framework_to_output_path` |
| change | `field`, `old_value`, `new_value` |
| applied step | `name`, `changes` |

A namespace is its address.  A text node is a bare text; a bare flag or number is read as
the text node of its value.  Reading, a member that was left out has its default: the
empty namespace, no children, no frameworks, the flag `true`; a project without a
namespace, or with a null one, takes that of its root element.
-/

import Retarget.Data.Shape
import Retarget.Data.Tree
import Retarget.Migration.Change
import Retarget.Options

namespace Retarget

/-- How a namespace stands in a file. -/
def Namespace.shape : Shape Namespace := .made .text Namespace.mk

/-- The namespace as it is written. -/
def Namespace.tree (space : Namespace) : Tree := .text space.uri

namespace Name

/-- How a name stands in a file. -/
def shape : Shape Name :=
  .record "XName" false
    (.defaulted "namespace" Namespace.shape Namespace.none (.required "local_name" .text .done))
    fun (space, localName, ()) => ⟨space, localName⟩

/-- The name as it is written. -/
def tree (name : Name) : Tree :=
  .record (Tree.member "namespace" name.space.tree name.space.isNone ++
    [("local_name", .text name.localName)])

end Name

/-- How an element stands in a file, when nodes are read by `node?`. -/
def Element.shapeOver (node? : Value → Option Node) : Shape Element :=
  .record "Element" false
    (.required "name" Name.shape (.defaulted "children" (.list (.buffered "RawNode" node?)) [] .done))
    fun (name, children, ()) => ⟨name, children⟩

namespace Node

/-- The node that a value of bounded depth stands for: an element if it can be read as
one, else the text of a scalar. -/
def ofValueWithin : (depth : Nat) → Value → Option Node
  | 0, v => v.scalarText?.map text
  | depth + 1, v =>
    match (Element.shapeOver (ofValueWithin depth)).ofValue? v with
    | some e => some e.node
    | none => v.scalarText?.map text

/-- The node that a value stands for. -/
def ofValue? (v : Value) : Option Node := ofValueWithin v.depth v

/-- How a node stands in a file. -/
def shape : Shape Node := .buffered "RawNode" ofValue?

mutual

/-- The node as it is written. -/
def tree : Node → Tree
  | .text content => .text content
  | .element name children =>
    .record (("name", name.tree) :: Tree.member "children" (.list (trees children)) children.isEmpty)

/-- The nodes as they are written. -/
def trees : List Node → List Tree
  | [] => []
  | n :: ns => tree n :: trees ns

end

end Node

/-- How an element stands in a file. -/
def Element.shape : Shape Element := Element.shapeOver Node.ofValue?

/-- The element as it is written. -/
def Element.tree (e : Element) : Tree := e.node.tree

/-- How a document stands in a file. -/
def Document.shape : Shape Document :=
  .record "Document" false (.required "root" Element.shape .done) fun (root, ()) => ⟨root⟩

/-- The document as it is written. -/
def Document.tree (d : Document) : Tree := .record [("root", d.root.tree)]

/-- The member that holds the frameworks. -/
def frameworksKey : String := "target_frameworks"

/-- The member that holds the append flag. -/
def appendKey : String := "append_target_framework_to_output_path"

namespace Project

/-- How a project stands in a file. -/
def shape : Shape Project :=
  .record "ProjectSnapshot" false
    (.defaulted frameworksKey (.list .text) [] (.defaulted appendKey .flag true
      (.required "document" Document.shape (.required "namespace" (.nullable Namespace.shape) .done))))
    fun (frameworks, append, document, space, ()) =>
      ⟨frameworks, append, document, space.getD document.root.name.space⟩

/-- The project as it is written. -/
def tree (p : Project) : Tree :=
  .record [(frameworksKey, Tree.texts p.frameworks), (appendKey, .flag p.appendFramework),
    ("document", p.document.tree), ("namespace", p.space.tree)]

end Project

namespace Options

/-- How options stand in a file: no other member is allowed. -/
def shape : Shape Options :=
  .record "MigrationOptions" true
    (.defaulted frameworksKey (.list .text) [] (.defaulted appendKey .flag true .done))
    fun (frameworks, append, ()) => ⟨frameworks, append⟩

/-- The options as they are written. -/
def tree (o : Options) : Tree :=
  .record [(frameworksKey, Tree.texts o.frameworks), (appendKey, .flag o.appendFramework)]

end Options

/-- How a setting stands in a file. -/
def Setting.shape : Shape Setting := .choice "ProjectField" (Setting.all.map fun f => (f.label, f))

/-- The setting as it is written. -/
def Setting.tree (f : Setting) : Tree := .text f.label

namespace Change

/-- How a change stands in a file. -/
def shape : Shape Change :=
  .record "FieldChange" false
    (.required "field" Setting.shape (.required "old_value" .text (.required "new_value" .text .done)))
    fun (field, oldValue, newValue, ()) => ⟨field, oldValue, newValue⟩

/-- The change as it is written. -/
def tree (c : Change) : Tree :=
  .record [("field", c.field.tree), ("old_value", .text c.oldValue), ("new_value", .text c.newValue)]

end Change

namespace Applied

/-- How an applied step stands in a file. -/
def shape : Shape Applied :=
  .record "AppliedTransformation" false
    (.required "name" .text (.required "changes" (.list Change.shape) .done))
    fun (name, changes, ()) => ⟨name, changes⟩

/-- The applied step as it is written. -/
def tree (a : Applied) : Tree :=
  .record [("name", .text a.name), ("changes", .list (a.changes.map Change.tree))]

end Applied

/-- The unsupported kind as it is written. -/
def ProjectKind.tree (kind : ProjectKind) : Tree :=
  .record [("guid", .text kind.guid), ("description", .text kind.description)]

end Retarget
